import LolStreams.OrderedMap

/-! The Ruby values that a parsed request or a stored document is made of. A hash keeps its
entries in order of insertion, with each key once. -/
namespace Ruby

inductive Exn
  | noMethodError
  | typeError
  | invalidValue
  | unknownAttribute
  | documentNotFound
  deriving DecidableEq, Repr

inductive Obj
  | nil
  | str (s : String)
  | arr (xs : List Obj)
  | hash (es : List (String × Obj))
  deriving Repr

abbrev Hash := List (String × Obj)

namespace Obj

theorem induction {P : Obj → Prop} (nil : P nil) (str : ∀ s, P (str s))
    (arr : ∀ xs, (∀ x ∈ xs, P x) → P (arr xs))
    (hash : ∀ es, (∀ k v, (k, v) ∈ es → P v) → P (hash es)) (a : Obj) : P a := by
  refine @Obj.rec P (fun xs => ∀ x ∈ xs, P x) (fun es => ∀ k v, (k, v) ∈ es → P v)
    (fun e => P e.2) nil str arr hash ?_ ?_ ?_ ?_ ?_ a
  · simp
  · intro x xs hx hxs y hy
    rcases List.mem_cons.mp hy with rfl | hy
    · exact hx
    · exact hxs y hy
  · simp
  · rintro ⟨j, u⟩ es he hes k v hm
    rcases List.mem_cons.mp hm with hm | hm
    · cases hm
      exact he
    · exact hes k v hm
  · exact fun _ _ h => h

/-! ### Equality

Two hashes are equal when each has every entry of the other, in whatever order. -/

mutual

/-- Every entry on the left is also on the right. -/
def sub : Obj → Obj → Bool
  | nil, nil => true
  | str a, str b => a = b
  | arr xs, arr ys => subAll xs ys
  | hash es, hash fs => subEntries es fs
  | _, _ => false

def subAll : List Obj → List Obj → Bool
  | [], [] => true
  | x :: xs, y :: ys => x.sub y && subAll xs ys
  | _, _ => false

def subEntries : List (String × Obj) → List (String × Obj) → Bool
  | [], _ => true
  | (k, v) :: es, fs =>
    (match fs.lookup k with
      | some w => v.sub w
      | none => false) && subEntries es fs

end

/-- `a == b` -/
def eqv (a b : Obj) : Bool := a.sub b && b.sub a

/-- Each key occurs once, at every level. -/
inductive WellFormed : Obj → Prop
  | nil : WellFormed nil
  | str (s : String) : WellFormed (str s)
  | arr {xs : List Obj} (h : ∀ x ∈ xs, WellFormed x) : WellFormed (arr xs)
  | hash {es : List (String × Obj)} (hn : (Entries.keys es).Nodup)
      (h : ∀ e ∈ es, WellFormed e.2) : WellFormed (hash es)

theorem WellFormed.singleton {v : Obj} (h : v.WellFormed) (k : String) :
    (Obj.hash [(k, v)]).WellFormed := by
  refine .hash (List.nodup_singleton k) ?_
  intro e he
  rw [List.mem_singleton.mp he]
  exact h

theorem subAll_iff {xs ys : List Obj} :
    subAll xs ys = true ↔ List.Forall₂ (fun x y => x.sub y = true) xs ys := by
  induction xs generalizing ys with
  | nil => cases ys <;> simp [subAll]
  | cons x xs ih => cases ys <;> simp [subAll, ih]

theorem subEntries_iff {es fs : List (String × Obj)} :
    subEntries es fs = true ↔
      ∀ k v, (k, v) ∈ es → ∃ w, fs.lookup k = some w ∧ v.sub w = true := by
  induction es with
  | nil => simp [subEntries]
  | cons e es ih =>
    rcases e with ⟨j, u⟩
    simp only [subEntries, Bool.and_eq_true, ih, List.mem_cons, Prod.mk.injEq]
    constructor
    · rintro ⟨hu, h⟩ k v (⟨rfl, rfl⟩ | hm)
      · cases hl : fs.lookup k with
        | none => simp [hl] at hu
        | some w => exact ⟨w, rfl, by simpa [hl] using hu⟩
      · exact h k v hm
    · intro h
      refine ⟨?_, fun k v hm => h k v (.inr hm)⟩
      obtain ⟨w, hw, hs⟩ := h j u (.inl ⟨rfl, rfl⟩)
      simpa [hw] using hs

theorem sub_hash {es fs : List (String × Obj)} :
    (hash es).sub (hash fs) = true ↔
      ∀ k v, (k, v) ∈ es → ∃ w, fs.lookup k = some w ∧ v.sub w = true := by
  rw [sub, subEntries_iff]

theorem sub_refl {a : Obj} (h : a.WellFormed) : a.sub a = true := by
  induction h with
  | nil => rfl
  | str s => simp [sub]
  | arr h ih =>
    rw [sub, subAll_iff, List.forall₂_same]
    exact ih
  | hash hn h ih =>
    rw [sub_hash]
    intro k v hm
    exact ⟨v, Entries.lookup_of_mem hn hm, ih (k, v) hm⟩

theorem sub_trans (a b c : Obj) (hab : a.sub b = true) (hbc : b.sub c = true) :
    a.sub c = true := by
  induction a using Obj.induction generalizing b c with
  | nil =>
    cases b with
    | nil => exact hbc
    | _ => simp [sub] at hab
  | str s =>
    cases b with
    | str t =>
      obtain rfl : s = t := by simpa [sub] using hab
      exact hbc
    | _ => simp [sub] at hab
  | arr xs ih =>
    cases b with
    | arr ys =>
      cases c with
      | arr zs =>
        rw [sub, subAll_iff] at hab hbc ⊢
        induction hab generalizing zs with
        | nil => exact hbc
        | cons hx _ ih' =>
          cases hbc with
          | cons hy hys =>
            refine .cons (ih _ List.mem_cons_self _ _ hx hy) (ih' ?_ _ hys)
            exact fun x hm => ih x (List.mem_cons_of_mem _ hm)
      | _ => simp [sub] at hbc
    | _ => simp [sub] at hab
  | hash es ih =>
    cases b with
    | hash fs =>
      cases c with
      | hash gs =>
        rw [sub_hash] at hab hbc ⊢
        intro k v hm
        obtain ⟨w, hw, hv⟩ := hab k v hm
        obtain ⟨u, hu, hw'⟩ := hbc k w (Entries.mem_of_lookup hw)
        exact ⟨u, hu, ih k v hm _ _ hv hw'⟩
      | _ => simp [sub] at hbc
    | _ => simp [sub] at hab

theorem eqv_refl {a : Obj} (h : a.WellFormed) : a.eqv a = true := by
  simp [eqv, sub_refl h]

theorem eqv_symm {a b : Obj} (h : a.eqv b = true) : b.eqv a = true := by
  simpa only [eqv, Bool.and_comm] using h

theorem eqv_trans {a b c : Obj} (hab : a.eqv b = true) (hbc : b.eqv c = true) :
    a.eqv c = true := by
  simp only [eqv, Bool.and_eq_true] at hab hbc ⊢
  exact ⟨sub_trans a b c hab.1 hbc.1, sub_trans c b a hbc.2 hab.2⟩

/-- Equality of a nested value is equality of the values under its keys. -/
theorem eqv_hash {es fs : List (String × Obj)} (hes : (Entries.keys es).Nodup)
    (hfs : (Entries.keys fs).Nodup) :
    (hash es).eqv (hash fs) = true ↔
      ∀ k, (es.lookup k = none ∧ fs.lookup k = none) ∨
        ∃ v w, es.lookup k = some v ∧ fs.lookup k = some w ∧ v.eqv w = true := by
  simp only [eqv, Bool.and_eq_true, sub_hash]
  constructor
  · rintro ⟨h₁, h₂⟩ k
    cases hv : es.lookup k with
    | none =>
      cases hw : fs.lookup k with
      | none => exact .inl ⟨rfl, rfl⟩
      | some w =>
        obtain ⟨v, hv', _⟩ := h₂ k w (Entries.mem_of_lookup hw)
        simp [hv] at hv'
    | some v =>
      obtain ⟨w, hw, hs⟩ := h₁ k v (Entries.mem_of_lookup hv)
      obtain ⟨v', hv', hs'⟩ := h₂ k w (Entries.mem_of_lookup hw)
      obtain rfl : v = v' := Option.some.inj (hv.symm.trans hv')
      exact .inr ⟨v, w, rfl, hw, hs, hs'⟩
  · intro h
    constructor
    · intro k v hm
      rcases h k with ⟨hv, _⟩ | ⟨v', w, hv, hw, hs, _⟩
      · simp [Entries.lookup_of_mem hes hm] at hv
      · obtain rfl : v = v' := Option.some.inj ((Entries.lookup_of_mem hes hm).symm.trans hv)
        exact ⟨w, hw, hs⟩
    · intro k w hm
      rcases h k with ⟨_, hw⟩ | ⟨v, w', hv, hw, _, hs⟩
      · simp [Entries.lookup_of_mem hfs hm] at hw
      · obtain rfl : w = w' := Option.some.inj ((Entries.lookup_of_mem hfs hm).symm.trans hw)
        exact ⟨v, hv, hs⟩

@[simp] theorem eqv_str (a b : String) : (str a).eqv (str b) = decide (a = b) := by
  by_cases h : a = b
  · simp [eqv, sub, h]
  · simp [eqv, sub, h]

theorem eqv_str_iff {a : Obj} {s : String} : a.eqv (str s) = true ↔ a = str s := by
  cases a <;> simp [eqv, sub, eq_comm]

/-- `h == {}` -/
theorem eqv_empty (es : List (String × Obj)) : (hash es).eqv (hash []) = es.isEmpty := by
  cases es with
  | nil => rfl
  | cons e es => simp [eqv, sub, subEntries]

end Obj

/-! ### Strings -/

/-- `s.downcase`, which before Ruby 2.4 touches the ASCII letters only. -/
def downcase (s : String) : String := String.ofList (s.toList.map Char.toLower)

/-- `s.delete(" ")` -/
def deleteSpaces (s : String) : String := String.ofList (s.toList.filter fun c => c ≠ ' ')

theorem deleteSpaces_of_not_mem {s : String} (h : ' ' ∉ s.toList) : deleteSpaces s = s := by
  rw [deleteSpaces, List.filter_eq_self.mpr, String.ofList_toList]
  intro c hc
  have hne : c ≠ ' ' := fun he => h (he ▸ hc)
  simpa using hne

theorem downcase_downcase (s : String) : downcase (downcase s) = downcase s := by
  simp [downcase, Function.comp_def]

theorem toLower_ne_space {c : Char} (h : c ≠ ' ') : c.toLower ≠ ' ' := by
  intro hc
  have halpha : c.isAlpha = false := by
    rw [← Char.isAlpha_toLower_eq_isAlpha, hc]
    decide
  have hupper : ¬ c.isUpper := by
    intro hu
    simp [Char.isAlpha, hu] at halpha
  exact h (Char.toLower_eq_of_not_isUpper hupper ▸ hc)

theorem space_not_mem_downcase {s : String} (h : ' ' ∉ s.toList) : ' ' ∉ (downcase s).toList := by
  rw [downcase, String.toList_ofList, List.mem_map]
  rintro ⟨c, hc, hl⟩
  have hne : c ≠ ' ' := fun he => h (he ▸ hc)
  exact toLower_ne_space hne hl

theorem space_not_mem_deleteSpaces (s : String) : ' ' ∉ (deleteSpaces s).toList := by
  simp [deleteSpaces]

theorem downcase_deleteSpaces_eq_empty {s : String} :
    downcase (deleteSpaces s) = "" ↔ ∀ c ∈ s.toList, c = ' ' := by
  simp [downcase, deleteSpaces, List.filter_eq_nil_iff]

end Ruby
