import Mathlib

/-! Finite maps that keep their keys in order of arrival: reassigning a key keeps its
place, a new key goes to the end. Everything except the visiting order is decided by
`lookup`, and the lemmas below are stated on it. -/
namespace Entries

variable {κ α : Type*} [DecidableEq κ]

def keys (es : List (κ × α)) : List κ := es.map Prod.fst

def set (k : κ) (v : α) : List (κ × α) → List (κ × α)
  | [] => [(k, v)]
  | e :: es => if e.1 = k then (k, v) :: es else e :: set k v es

def erase (k : κ) (es : List (κ × α)) : List (κ × α) := es.filter (fun e => e.1 ≠ k)

omit [DecidableEq κ] in
@[simp] theorem keys_nil : keys ([] : List (κ × α)) = [] := rfl

omit [DecidableEq κ] in
@[simp] theorem keys_cons (e : κ × α) (es : List (κ × α)) : keys (e :: es) = e.1 :: keys es := rfl

omit [DecidableEq κ] in
@[simp] theorem keys_append (es fs : List (κ × α)) : keys (es ++ fs) = keys es ++ keys fs := by
  simp [keys]

theorem lookup_cons (j : κ) (e : κ × α) (es : List (κ × α)) :
    (e :: es).lookup j = if j = e.1 then some e.2 else es.lookup j := by
  rcases e with ⟨k, v⟩
  by_cases h : j = k
  · simp [h]
  · simp [List.lookup_cons, h, beq_eq_false_iff_ne.mpr h]

theorem lookup_set (j k : κ) (v : α) (es : List (κ × α)) :
    (set k v es).lookup j = if j = k then some v else es.lookup j := by
  induction es with
  | nil => simp only [set, lookup_cons]
  | cons e es ih =>
    simp only [set]
    split_ifs with he hj hj
    · simp [lookup_cons, hj]
    · have hne : j ≠ e.1 := fun h => hj (h.trans he)
      simp [lookup_cons, hj, hne]
    · have hne : j ≠ e.1 := fun h => he (h.symm.trans hj)
      simp only [lookup_cons, hne, if_false, ih, if_pos hj]
    · simp only [lookup_cons, ih, if_neg hj]

theorem lookup_erase (j k : κ) (es : List (κ × α)) :
    (erase k es).lookup j = if j = k then none else es.lookup j := by
  induction es with
  | nil => simp [erase]
  | cons e es ih =>
    simp only [erase, List.filter_cons] at ih ⊢
    by_cases he : e.1 = k
    · simp only [he, ne_eq, not_true_eq_false, decide_false, Bool.false_eq_true, if_false, ih,
        lookup_cons]
      split_ifs <;> rfl
    · simp only [ne_eq, he, not_false_eq_true, decide_true, if_true, lookup_cons, ih]
      split_ifs with h₁ h₂
      · exact absurd (h₁.symm.trans h₂) he
      all_goals rfl

theorem mem_keys {k : κ} {es : List (κ × α)} : k ∈ keys es ↔ (es.lookup k).isSome := by
  induction es with
  | nil => simp
  | cons e es ih =>
    rw [keys_cons, List.mem_cons, lookup_cons, ih]
    split_ifs with h <;> simp [h]

theorem lookup_eq_none {k : κ} {es : List (κ × α)} : es.lookup k = none ↔ k ∉ keys es := by
  rw [mem_keys, Option.not_isSome_iff_eq_none]

theorem mem_of_lookup {k : κ} {v : α} {es : List (κ × α)} (h : es.lookup k = some v) :
    (k, v) ∈ es := by
  induction es with
  | nil => simp at h
  | cons e es ih =>
    rw [lookup_cons] at h
    split_ifs at h with hk
    · cases h
      simp [hk]
    · exact List.mem_cons_of_mem _ (ih h)

theorem lookup_of_mem {k : κ} {v : α} {es : List (κ × α)} (hn : (keys es).Nodup)
    (h : (k, v) ∈ es) : es.lookup k = some v := by
  induction es with
  | nil => simp at h
  | cons e es ih =>
    rw [keys_cons, List.nodup_cons] at hn
    rw [lookup_cons]
    rcases List.mem_cons.mp h with rfl | h
    · simp
    · have hk : k ∈ keys es := List.mem_map.mpr ⟨(k, v), h, rfl⟩
      have hne : k ≠ e.1 := fun he => hn.1 (he ▸ hk)
      rw [if_neg hne, ih hn.2 h]

theorem keys_set (k : κ) (v : α) (es : List (κ × α)) :
    keys (set k v es) = if k ∈ keys es then keys es else keys es ++ [k] := by
  induction es with
  | nil => simp [set]
  | cons e es ih =>
    simp only [set]
    split_ifs with he hm hm
    · simp [he]
    · simp [he] at hm
    · have hk : k ∈ keys es := by simpa [Ne.symm he] using hm
      simp [ih, hk]
    · have hk : k ∉ keys es := fun h => hm (List.mem_cons_of_mem _ h)
      simp [ih, hk]

theorem set_of_not_mem {k : κ} {v : α} {es : List (κ × α)} (h : k ∉ keys es) :
    set k v es = es ++ [(k, v)] := by
  induction es with
  | nil => rfl
  | cons e es ih =>
    rw [keys_cons, List.mem_cons, not_or] at h
    simp [set, Ne.symm h.1, ih h.2]

theorem nodup_set {es : List (κ × α)} (hn : (keys es).Nodup) (k : κ) (v : α) :
    (keys (set k v es)).Nodup := by
  rw [keys_set]
  split_ifs with h
  · exact hn
  · rw [List.nodup_append]
    refine ⟨hn, List.nodup_singleton k, ?_⟩
    intro a ha b hb
    rw [List.mem_singleton.mp hb]
    exact fun he => h (he ▸ ha)

theorem keys_erase (k : κ) (es : List (κ × α)) :
    keys (erase k es) = (keys es).filter (fun j => j ≠ k) := by
  simp only [keys, erase, List.filter_map]
  rfl

theorem nodup_erase {es : List (κ × α)} (hn : (keys es).Nodup) (k : κ) :
    (keys (erase k es)).Nodup := by
  rw [keys_erase]
  exact hn.filter _

/-! ### A key with what comes before and after it -/

theorem lookup_append_cons {k : κ} {v : α} {xs ys : List (κ × α)} (h : k ∉ keys xs) :
    (xs ++ (k, v) :: ys).lookup k = some v := by
  induction xs with
  | nil => simp
  | cons x xs ih =>
    rw [keys_cons, List.mem_cons, not_or] at h
    rw [List.cons_append, lookup_cons, if_neg h.1, ih h.2]

theorem set_append_cons {k : κ} {v w : α} {xs ys : List (κ × α)} (h : k ∉ keys xs) :
    set k w (xs ++ (k, v) :: ys) = xs ++ (k, w) :: ys := by
  induction xs with
  | nil => simp [set]
  | cons x xs ih =>
    rw [keys_cons, List.mem_cons, not_or] at h
    rw [List.cons_append, set, if_neg (Ne.symm h.1), ih h.2, List.cons_append]

theorem erase_of_not_mem {k : κ} {es : List (κ × α)} (h : k ∉ keys es) : erase k es = es := by
  rw [erase, List.filter_eq_self]
  intro e he
  have hne : e.1 ≠ k := fun hk => h (hk ▸ List.mem_map_of_mem he)
  simpa using hne

theorem erase_append_cons {k : κ} {v : α} {xs ys : List (κ × α)} (hx : k ∉ keys xs)
    (hy : k ∉ keys ys) : erase k (xs ++ (k, v) :: ys) = xs ++ ys := by
  have hxs := erase_of_not_mem hx
  have hys := erase_of_not_mem hy
  simp only [erase] at hxs hys ⊢
  rw [List.filter_append, hxs, List.filter_cons_of_neg (by simp), hys]

/-! ### Working on the values -/

variable {β : Type*}

def mapVal (f : α → β) (es : List (κ × α)) : List (κ × β) := es.map fun e => (e.1, f e.2)

/-- Replace the values, dropping the keys that get none. -/
def filterMapVal (f : α → Option β) (es : List (κ × α)) : List (κ × β) :=
  es.filterMap fun e => (f e.2).map fun v => (e.1, v)

omit [DecidableEq κ] in
@[simp] theorem keys_mapVal (f : α → β) (es : List (κ × α)) : keys (mapVal f es) = keys es := by
  simp [keys, mapVal]

theorem lookup_mapVal (f : α → β) (es : List (κ × α)) (k : κ) :
    (mapVal f es).lookup k = (es.lookup k).map f := by
  induction es with
  | nil => rfl
  | cons e es ih =>
    simp only [mapVal, List.map_cons, lookup_cons] at ih ⊢
    split_ifs
    · rfl
    · exact ih

omit [DecidableEq κ] in
theorem keys_filterMapVal (f : α → Option β) (es : List (κ × α)) :
    (keys (filterMapVal f es)).Sublist (keys es) := by
  induction es with
  | nil => exact .slnil
  | cons e es ih =>
    simp only [filterMapVal, List.filterMap_cons] at ih ⊢
    cases f e.2 with
    | none => exact ih.cons _
    | some v => exact ih.cons_cons _

theorem lookup_filterMapVal (f : α → Option β) {es : List (κ × α)} (hn : (keys es).Nodup) (k : κ) :
    (filterMapVal f es).lookup k = (es.lookup k).bind f := by
  induction es with
  | nil => rfl
  | cons e es ih =>
    rw [keys_cons, List.nodup_cons] at hn
    have hi := ih hn.2
    have hsub := (keys_filterMapVal f es).subset
    simp only [filterMapVal, List.filterMap_cons, lookup_cons] at hi hsub ⊢
    by_cases hk : k = e.1
    · subst hk
      rw [if_pos rfl, Option.bind_some]
      cases hf : f e.2 with
      | none => exact lookup_eq_none.mpr fun hm => hn.1 (hsub hm)
      | some v => simp
    · rw [if_neg hk, ← hi]
      cases hf : f e.2 with
      | none => rfl
      | some v => simp only [Option.map_some, lookup_cons, if_neg hk]

omit [DecidableEq κ] in
theorem filterMapVal_eq_self {f : α → Option α} {es : List (κ × α)}
    (h : ∀ k v, (k, v) ∈ es → f v = some v) : filterMapVal f es = es := by
  induction es with
  | nil => rfl
  | cons e es ih =>
    have hi := ih fun k v hm => h k v (List.mem_cons_of_mem _ hm)
    simp only [filterMapVal, List.filterMap_cons, h e.1 e.2 List.mem_cons_self] at hi ⊢
    exact congrArg (e :: ·) hi

end Entries

structure OrderedMap (κ α : Type*) where
  entries : List (κ × α)
  nodup : (Entries.keys entries).Nodup

namespace OrderedMap

variable {κ α : Type*} [DecidableEq κ]

def empty : OrderedMap κ α := ⟨[], List.nodup_nil⟩

def keys (m : OrderedMap κ α) : List κ := Entries.keys m.entries

def lookup (m : OrderedMap κ α) (k : κ) : Option α := m.entries.lookup k

def set (m : OrderedMap κ α) (k : κ) (v : α) : OrderedMap κ α :=
  ⟨Entries.set k v m.entries, Entries.nodup_set m.nodup k v⟩

def erase (m : OrderedMap κ α) (k : κ) : OrderedMap κ α :=
  ⟨Entries.erase k m.entries, Entries.nodup_erase m.nodup k⟩

def filterMap {β : Type*} (f : α → Option β) (m : OrderedMap κ α) : OrderedMap κ β :=
  ⟨Entries.filterMapVal f m.entries, m.nodup.sublist (Entries.keys_filterMapVal f m.entries)⟩

/-- A value for each of the given keys. -/
def tabulate (ks : List κ) (hn : ks.Nodup) (f : κ → α) : OrderedMap κ α :=
  ⟨ks.map fun k => (k, f k), by simpa [Entries.keys, Function.comp_def] using hn⟩

/-- The same contents, in whatever order the keys arrived. -/
def Same (m n : OrderedMap κ α) : Prop := ∀ k, m.lookup k = n.lookup k

@[simp] theorem lookup_empty (k : κ) : (empty : OrderedMap κ α).lookup k = none := rfl

@[simp] theorem lookup_set (m : OrderedMap κ α) (j k : κ) (v : α) :
    (m.set k v).lookup j = if j = k then some v else m.lookup j :=
  Entries.lookup_set j k v m.entries

@[simp] theorem lookup_erase (m : OrderedMap κ α) (j k : κ) :
    (m.erase k).lookup j = if j = k then none else m.lookup j :=
  Entries.lookup_erase j k m.entries

@[simp] theorem lookup_filterMap {β : Type*} (f : α → Option β) (m : OrderedMap κ α) (k : κ) :
    (m.filterMap f).lookup k = (m.lookup k).bind f :=
  Entries.lookup_filterMapVal f m.nodup k

@[simp] theorem lookup_tabulate (ks : List κ) (hn : ks.Nodup) (f : κ → α) (k : κ) :
    (tabulate ks hn f).lookup k = if k ∈ ks then some (f k) else none := by
  simp only [lookup, tabulate]
  clear hn
  induction ks with
  | nil => simp
  | cons j ks ih =>
    rw [List.map_cons, Entries.lookup_cons, ih]
    by_cases hk : k = j
    · simp [hk]
    · simp [hk]

theorem mem_keys {m : OrderedMap κ α} {k : κ} : k ∈ m.keys ↔ (m.lookup k).isSome :=
  Entries.mem_keys

theorem mem_entries {m : OrderedMap κ α} {k : κ} {v : α} :
    (k, v) ∈ m.entries ↔ m.lookup k = some v :=
  ⟨Entries.lookup_of_mem m.nodup, Entries.mem_of_lookup⟩

theorem filterMap_eq_self {f : α → Option α} {m : OrderedMap κ α}
    (h : ∀ k v, m.lookup k = some v → f v = some v) : m.filterMap f = m := by
  have hes : Entries.filterMapVal f m.entries = m.entries :=
    Entries.filterMapVal_eq_self fun k v hm => h k v (mem_entries.mp hm)
  rcases m with ⟨es, hn⟩
  simp only [filterMap] at hes ⊢
  simp only [hes]

theorem entries_eq_nil {m : OrderedMap κ α} : m.entries = [] ↔ ∀ k, m.lookup k = none := by
  constructor
  · intro h k
    simp [lookup, h]
  · intro h
    rw [List.eq_nil_iff_forall_not_mem]
    rintro ⟨k, v⟩ hm
    rw [mem_entries, h k] at hm
    simp at hm

end OrderedMap
