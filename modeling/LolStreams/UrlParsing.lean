import Mathlib

/-! Reading URLs: split off the fragment, the query, the scheme and the host, split the path
and the query into their parts, then decode each part. A URL that is written without escaping
reads back exactly when its parts hold no delimiter of theirs and nothing to decode. -/
namespace UrlParsing

abbrev Octets := List UInt8

/-- UTF-8. Kept folded: elsewhere it is either evaluated by `decide` or taken apart by the
lemmas. -/
@[irreducible] def octets (s : String) : Octets := s.toByteArray.data.toList

theorem octets_append (s t : String) : octets (s ++ t) = octets s ++ octets t := by
  simp [octets, String.toByteArray_append]

theorem octets_join (parts : List String) : octets (String.join parts) = parts.flatMap octets := by
  induction parts with
  | nil => simp [octets]
  | cons s parts ih => rw [String.join_cons, octets_append, ih, List.flatMap_cons]

theorem octets_injective : Function.Injective octets := by
  intro s t h
  rw [octets, octets] at h
  rw [← String.toByteArray_inj]
  exact ByteArray.ext (Array.toList_inj.mp h)

def sharp : UInt8 := 35
def percent : UInt8 := 37
def amp : UInt8 := 38
def slash : UInt8 := 47
def colon : UInt8 := 58
def equals : UInt8 := 61
def question : UInt8 := 63

/-! ### Percent-decoding -/

def hexDigit (c : UInt8) : Option UInt8 :=
  if 48 ≤ c ∧ c ≤ 57 then some (c - 48)
  else if 65 ≤ c ∧ c ≤ 70 then some (c - 55)
  else if 97 ≤ c ∧ c ≤ 102 then some (c - 87)
  else none

/-- The octet that three octets stand for. -/
def escaped (c a b : UInt8) : Option UInt8 :=
  if c = percent then (hexDigit a).bind fun x => (hexDigit b).map fun y => 16 * x + y else none

/-- A percent sign that is not followed by two digits stands for itself. -/
def decode : Octets → Octets
  | c :: a :: b :: rest =>
    match escaped c a b with
    | some d => d :: decode rest
    | none => c :: decode (a :: b :: rest)
  | cs => cs

def hasEscape : Octets → Bool
  | c :: a :: b :: rest => (escaped c a b).isSome || hasEscape (a :: b :: rest)
  | _ => false

theorem length_decode_le (x : Octets) : (decode x).length ≤ x.length := by
  fun_induction decode x with
  | case1 c a b rest d hd ih =>
    simp only [List.length_cons]
    omega
  | case2 c a b rest hd ih =>
    simp only [List.length_cons] at ih ⊢
    omega
  | case3 cs h => exact le_rfl

/-- An escape of three octets stands for one. -/
theorem length_decode_mod_two (x : Octets) : (decode x).length % 2 = x.length % 2 := by
  fun_induction decode x with
  | case1 c a b rest d hd ih =>
    simp only [List.length_cons]
    omega
  | case2 c a b rest hd ih =>
    simp only [List.length_cons] at ih ⊢
    omega
  | case3 cs h => rfl

theorem decode_of_not_hasEscape {x : Octets} (h : hasEscape x = false) : decode x = x := by
  fun_induction decode x with
  | case1 c a b rest d hd ih => simp [hasEscape, hd] at h
  | case2 c a b rest hd ih =>
    rw [ih (by simpa [hasEscape, hd] using h)]
  | case3 cs hcs => rfl

theorem length_decode_lt {x : Octets} (h : hasEscape x = true) :
    (decode x).length < x.length := by
  fun_induction decode x with
  | case1 c a b rest d hd ih =>
    have hle := length_decode_le rest
    simp only [List.length_cons]
    omega
  | case2 c a b rest hd ih =>
    have hlt := ih (by simpa [hasEscape, hd] using h)
    simp only [List.length_cons] at hlt ⊢
    omega
  | case3 cs hcs =>
    unfold hasEscape at h
    split at h
    · exact absurd rfl (hcs _ _ _ _)
    · cases h

theorem decode_eq_self_iff (x : Octets) : decode x = x ↔ hasEscape x = false := by
  constructor
  · intro h
    cases he : hasEscape x with
    | false => rfl
    | true =>
      have hlt := length_decode_lt he
      rw [h] at hlt
      omega
  · exact decode_of_not_hasEscape

theorem map_decode_eq_self_iff (xs : List Octets) :
    xs.map decode = xs ↔ ∀ x ∈ xs, hasEscape x = false := by
  induction xs with
  | nil => simp
  | cons x xs ih => simp [ih, decode_eq_self_iff]

/-- An octet that can take no part in an escape is left alone. -/
theorem decode_append_singleton {c : UInt8} (hc : hexDigit c = none) (x : Octets) :
    decode (x ++ [c]) = decode x ++ [c] := by
  fun_induction decode x with
  | case1 a b d rest e he ih => simp [decode, he, ih]
  | case2 a b d rest he ih =>
    have hrest : decode (b :: d :: (rest ++ [c])) = decode (b :: d :: rest) ++ [c] := ih
    simp [decode, he, hrest]
  | case3 cs hcs =>
    match cs with
    | [] => rfl
    | [a] => rfl
    | [a, b] =>
      have hnone : escaped a b c = none := by simp [escaped, hc]
      simp [decode, hnone]
    | a :: b :: d :: rest => exact absurd rfl (hcs a b d rest)

/-! ### Cutting at a delimiter -/

def cut (c : UInt8) : Octets → Octets × Option Octets
  | [] => ([], none)
  | a :: as => if a = c then ([], some as) else (a :: (cut c as).1, (cut c as).2)

/-- What follows the delimiter, with it. -/
def lead (c : UInt8) : Option Octets → Octets
  | none => []
  | some x => c :: x

theorem cut_append {c : UInt8} {x : Octets} (hx : c ∉ x) (y : Option Octets) :
    cut c (x ++ lead c y) = (x, y) := by
  induction x with
  | nil => cases y <;> simp [cut, lead]
  | cons a as ih =>
    rw [List.mem_cons, not_or] at hx
    simp [cut, ih hx.2, Ne.symm hx.1]

theorem cut_spec (c : UInt8) (x : Octets) :
    c ∉ (cut c x).1 ∧ (cut c x).1 ++ lead c (cut c x).2 = x := by
  induction x with
  | nil => simp [cut, lead]
  | cons a as ih =>
    by_cases ha : a = c
    · simp [cut, ha, lead]
    · simp [cut, ha, Ne.symm ha, ih.1, ih.2]

/-- The parts between delimiters, none where there is nothing to split. -/
def pieces (c : UInt8) : Option Octets → List Octets
  | none => []
  | some x => x.splitOn c

def joined (c : UInt8) : List Octets → Option Octets
  | [] => none
  | x :: xs => some ([c].intercalate (x :: xs))

theorem joined_pieces (c : UInt8) (x : Option Octets) : joined c (pieces c x) = x := by
  cases x with
  | none => rfl
  | some x =>
    have hjoin : [c].intercalate (x.splitOn c) = x := List.intercalate_splitOn c
    cases hs : x.splitOn c with
    | nil => exact absurd hs (List.splitOn_ne_nil c x)
    | cons y ys =>
      rw [hs] at hjoin
      rw [pieces, hs, joined, hjoin]

theorem pieces_joined {c : UInt8} {xs : List Octets} (h : ∀ x ∈ xs, c ∉ x) :
    pieces c (joined c xs) = xs := by
  cases xs with
  | nil => rfl
  | cons x xs => exact List.splitOn_intercalate c h (List.cons_ne_nil x xs)

theorem not_mem_of_mem_pieces {c : UInt8} {x : Option Octets} {p : Octets}
    (hp : p ∈ pieces c x) : c ∉ p := by
  cases x with
  | none => cases hp
  | some x =>
    rw [pieces] at hp
    induction x generalizing p with
    | nil =>
      rw [List.splitOn_nil, List.mem_singleton] at hp
      simp [hp]
    | cons a as ih =>
      rw [List.splitOn_cons_eq_if_modifyHead] at hp
      by_cases ha : a = c
      · rw [if_pos (by simpa using ha), List.mem_cons] at hp
        rcases hp with rfl | hp
        · simp
        · exact ih hp
      · rw [if_neg (by simpa using ha)] at hp
        cases hs : as.splitOn c with
        | nil => exact absurd hs (List.splitOn_ne_nil c as)
        | cons y ys =>
          rw [hs, List.modifyHead_cons, List.mem_cons] at hp
          rw [hs] at ih
          rcases hp with rfl | hp
          · simp [Ne.symm ha, ih List.mem_cons_self]
          · exact ih (List.mem_cons_of_mem _ hp)

theorem mem_intercalate {c d : UInt8} {xs : List Octets} (h : d ∈ [c].intercalate xs) :
    d = c ∨ ∃ x ∈ xs, d ∈ x := by
  induction xs with
  | nil => cases h
  | cons x xs ih =>
    cases xs with
    | nil =>
      rw [List.intercalate_singleton] at h
      exact .inr ⟨x, List.mem_cons_self, h⟩
    | cons y ys =>
      rw [List.intercalate_cons_cons, List.append_assoc, List.mem_append, List.mem_append,
        List.mem_singleton] at h
      rcases h with h | h | h
      · exact .inr ⟨x, List.mem_cons_self, h⟩
      · exact .inl h
      · rcases ih h with h | ⟨z, hz, hd⟩
        · exact .inl h
        · exact .inr ⟨z, List.mem_cons_of_mem _ hz, hd⟩

theorem mem_intercalate_of_mem {c d : UInt8} {x : Octets} {xs : List Octets} (hx : x ∈ xs)
    (hd : d ∈ x) : d ∈ [c].intercalate xs := by
  induction xs with
  | nil => cases hx
  | cons y ys ih =>
    cases ys with
    | nil =>
      rw [List.mem_singleton.mp hx] at hd
      rwa [List.intercalate_singleton]
    | cons z zs =>
      rw [List.intercalate_cons_cons, List.mem_append, List.mem_append]
      rcases List.mem_cons.mp hx with rfl | hx
      · exact .inl (.inl hd)
      · exact .inr (ih hx)

theorem not_mem_lead_joined {first c d : UInt8} {xs : List Octets} (hf : d ≠ first) (hc : d ≠ c)
    (h : ∀ x ∈ xs, d ∉ x) : d ∉ lead first (joined c xs) := by
  cases xs with
  | nil => simp [joined, lead]
  | cons x xs =>
    rw [joined, lead, List.mem_cons, not_or]
    refine ⟨hf, fun hm => ?_⟩
    rcases mem_intercalate hm with hm | ⟨y, hy, hm⟩
    · exact hc hm
    · exact h y hy hm

theorem mem_lead_joined {first c d : UInt8} {x : Octets} {xs : List Octets} (hx : x ∈ xs)
    (hd : d ∈ x) : d ∈ lead first (joined c xs) := by
  cases xs with
  | nil => cases hx
  | cons y ys => exact List.mem_cons_of_mem _ (mem_intercalate_of_mem hx hd)

theorem length_lead_joined (first c : UInt8) (xs : List Octets) :
    (lead first (joined c xs)).length = (xs.map fun x => x.length + 1).sum := by
  cases xs with
  | nil => rfl
  | cons x xs =>
    have h : ([c].intercalate (x :: xs)).length = x.length + (xs.map fun x => x.length + 1).sum := by
      induction xs generalizing x with
      | nil => simp
      | cons y ys ih =>
        rw [List.intercalate_cons_cons, List.length_append, List.length_append, ih]
        simp only [List.length_singleton, List.map_cons, List.sum_cons]
        omega
    simp only [joined, lead, List.length_cons, h, List.map_cons, List.sum_cons]
    omega

/-- A segment of a path that stands for itself. -/
def PlainSegment (x : Octets) : Prop :=
  sharp ∉ x ∧ question ∉ x ∧ slash ∉ x ∧ hasEscape x = false

/-- A value of a parameter that stands for itself. -/
def PlainValue (x : Octets) : Prop := sharp ∉ x ∧ amp ∉ x ∧ hasEscape x = false

instance (x : Octets) : Decidable (PlainSegment x) :=
  inferInstanceAs (Decidable (sharp ∉ x ∧ question ∉ x ∧ slash ∉ x ∧ hasEscape x = false))

instance (x : Octets) : Decidable (PlainValue x) :=
  inferInstanceAs (Decidable (sharp ∉ x ∧ amp ∉ x ∧ hasEscape x = false))

/-! ### Functions that only shrink -/

/-- What the function changes, it makes smaller. -/
structure Shrinks {α : Type} (size : α → ℕ) (f : α → α) : Prop where
  le : ∀ a, size (f a) ≤ size a
  fixed : ∀ a, size (f a) = size a → f a = a

namespace Shrinks

variable {α β : Type} {size : α → ℕ} {size' : β → ℕ} {f : α → α} {g : β → β}

theorem list_le (h : Shrinks size f) (xs : List α) :
    ((xs.map f).map fun x => size x + 1).sum ≤ (xs.map fun x => size x + 1).sum := by
  induction xs with
  | nil => exact le_rfl
  | cons x xs ih =>
    have hx := h.le x
    simp only [List.map_cons, List.sum_cons]
    omega

theorem list (h : Shrinks size f) :
    Shrinks (fun xs => (xs.map fun x => size x + 1).sum) (List.map f) where
  le := h.list_le
  fixed xs := by
    intro hxs
    induction xs with
    | nil => rfl
    | cons x xs ih =>
      have hx := h.le x
      have hrest := h.list_le xs
      simp only [List.map_cons, List.sum_cons] at hxs
      have hhead : size (f x) = size x := by omega
      have htail : ((xs.map f).map fun x => size x + 1).sum =
          (xs.map fun x => size x + 1).sum := by omega
      rw [List.map_cons, h.fixed x hhead, ih htail]

theorem option (h : Shrinks size f) :
    Shrinks (fun x => (x.map fun a => size a + 1).getD 0) (Option.map f) where
  le x := by
    cases x with
    | none => exact le_rfl
    | some a => exact Nat.succ_le_succ (h.le a)
  fixed x := by
    intro hx
    cases x with
    | none => rfl
    | some a => exact congrArg some (h.fixed a (Nat.succ.inj hx))

theorem prod (h : Shrinks size f) (h' : Shrinks size' g) :
    Shrinks (fun p => size p.1 + size' p.2) (Prod.map f g) where
  le p := Nat.add_le_add (h.le p.1) (h'.le p.2)
  fixed p := by
    intro hp
    have h₁ := h.le p.1
    have h₂ := h'.le p.2
    simp only [Prod.map_fst, Prod.map_snd] at hp
    exact Prod.ext (h.fixed p.1 (by omega)) (h'.fixed p.2 (by omega))

end Shrinks

theorem shrinks_decode : Shrinks List.length decode where
  le := length_decode_le
  fixed x := by
    intro hx
    refine (decode_eq_self_iff x).mpr ?_
    cases he : hasEscape x with
    | false => rfl
    | true =>
      have hlt := length_decode_lt he
      omega

/-! ### URLs -/

abbrev Param := Octets × Option Octets

def Param.write (p : Param) : Octets := p.1 ++ lead equals p.2

/-- The parts of a URL. The path begins at the first slash after the host. -/
structure Url where
  scheme : Octets
  host : Octets
  path : List Octets
  query : List Param
  fragment : Option Octets
  deriving DecidableEq, Repr

namespace Url

def split (x : Octets) : Option Url :=
  let (x, fragment) := cut sharp x
  let (x, query) := cut question x
  match cut colon x with
  | (scheme, some (a :: b :: x)) =>
    if a = slash ∧ b = slash then
      let (host, path) := cut slash x
      some ⟨scheme, host, pieces slash path, (pieces amp query).map (cut equals), fragment⟩
    else none
  | _ => none

/-- What comes before the query. -/
def address (u : Url) : Octets :=
  u.scheme ++ lead colon (some (slash :: slash :: (u.host ++ lead slash (joined slash u.path))))

def queryText (u : Url) : Option Octets := joined amp (u.query.map Param.write)

/-- The parts put together again, nothing escaped. -/
def write (u : Url) : Octets :=
  u.address ++ lead question u.queryText ++ lead sharp u.fragment

def decoded (u : Url) : Url :=
  { u with
    path := u.path.map decode
    query := u.query.map (Prod.map decode (Option.map decode)) }

/-- Parts, each decoded after splitting. -/
def read (x : Octets) : Option Url := (split x).map decoded

/-- No part holds a delimiter that would end it. -/
structure Separated (u : Url) : Prop where
  scheme : sharp ∉ u.scheme ∧ question ∉ u.scheme ∧ colon ∉ u.scheme
  host : sharp ∉ u.host ∧ question ∉ u.host ∧ slash ∉ u.host
  path : ∀ x ∈ u.path, sharp ∉ x ∧ question ∉ x ∧ slash ∉ x
  query : ∀ p ∈ u.query, sharp ∉ p.write ∧ amp ∉ p.write ∧ equals ∉ p.1

theorem Separated.path_free {u : Url} (h : u.Separated) {c : UInt8} (hc : c = sharp ∨ c = question) :
    c ∉ u.address := by
  have hcolon : c ≠ colon := by rcases hc with rfl | rfl <;> decide
  have hslash : c ≠ slash := by rcases hc with rfl | rfl <;> decide
  have hscheme : c ∉ u.scheme := by
    rcases hc with rfl | rfl
    · exact h.scheme.1
    · exact h.scheme.2.1
  have hhost : c ∉ u.host := by
    rcases hc with rfl | rfl
    · exact h.host.1
    · exact h.host.2.1
  have hpath : c ∉ lead slash (joined slash u.path) := by
    refine not_mem_lead_joined hslash hslash fun x hx => ?_
    rcases hc with rfl | rfl
    · exact (h.path x hx).1
    · exact (h.path x hx).2.1
  rw [address, lead]
  simp only [List.mem_append, List.mem_cons, not_or]
  exact ⟨hscheme, hcolon, hslash, hslash, hhost, hpath⟩

theorem Separated.query_free {u : Url} (h : u.Separated) : sharp ∉ lead question u.queryText := by
  refine not_mem_lead_joined (by decide) (by decide) fun x hx => ?_
  obtain ⟨p, hp, rfl⟩ := List.mem_map.mp hx
  exact (h.query p hp).1

theorem Separated.params {u : Url} (h : u.Separated) :
    (pieces amp u.queryText).map (cut equals) = u.query := by
  have hamp : ∀ x ∈ u.query.map Param.write, amp ∉ x := by
    intro x hx
    obtain ⟨p, hp, rfl⟩ := List.mem_map.mp hx
    exact (h.query p hp).2.1
  have hcut : ∀ p ∈ u.query, cut equals p.write = p :=
    fun p hp => cut_append (h.query p hp).2.2 p.2
  rw [queryText, pieces_joined hamp, List.map_map]
  exact (List.map_congr_left hcut).trans (List.map_id u.query)

/-- Splitting finds the separated parts that a URL is put together from. -/
theorem split_write {u : Url} (h : u.Separated) : split u.write = some u := by
  have hpath : pieces slash (joined slash u.path) = u.path :=
    pieces_joined fun x hx => (h.path x hx).2.2
  have hfront : sharp ∉ u.address ++ lead question u.queryText := by
    rw [List.mem_append, not_or]
    exact ⟨h.path_free (.inl rfl), h.query_free⟩
  have hcolon : cut colon u.address = (u.scheme, some (slash :: slash ::
      (u.host ++ lead slash (joined slash u.path)))) := cut_append h.scheme.2.2 _
  rw [split, write, cut_append hfront]
  simp only [cut_append (h.path_free (.inr rfl)), hcolon, cut_append h.host.2.2, hpath,
    h.params, and_self, if_true]

theorem not_mem_address {u : Url} {c : UInt8} (h : c ∉ u.address) :
    c ∉ u.scheme ∧ c ∉ u.host ∧ ∀ x ∈ u.path, c ∉ x := by
  rw [address, lead] at h
  simp only [List.mem_append, List.mem_cons, not_or] at h
  obtain ⟨hscheme, _, _, _, hhost, hpath⟩ := h
  exact ⟨hscheme, hhost, fun x hx hc => hpath (mem_lead_joined hx hc)⟩

theorem write_cut (x : Octets) : (Param.write ∘ cut equals) x = x := (cut_spec equals x).2

/-- Whatever is split is put together again, and its parts are separated. -/
theorem split_spec {x : Octets} {u : Url} (h : split x = some u) :
    u.Separated ∧ u.write = x := by
  obtain ⟨hsharp, hx⟩ := cut_spec sharp x
  obtain ⟨hquestion, hx₁⟩ := cut_spec question (cut sharp x).1
  obtain ⟨hcolon, hx₂⟩ := cut_spec colon (cut question (cut sharp x).1).1
  simp only [split] at h
  split at h
  · rename_i scheme a b y heq
    rw [heq] at hcolon hx₂
    obtain ⟨hslash, hy⟩ := cut_spec slash y
    split_ifs at h with hab
    obtain ⟨rfl, rfl⟩ := hab
    have hu := Option.some.inj h
    have haddress : u.address = (cut question (cut sharp x).1).1 := by
      rw [← hu, address, joined_pieces, hy]
      exact hx₂
    have hquery : u.queryText = (cut question (cut sharp x).1).2 := by
      rw [← hu, queryText, List.map_map, funext write_cut, List.map_id', joined_pieces]
    rw [← hx₁, ← haddress, ← hquery, List.mem_append, not_or] at hsharp
    rw [← haddress] at hquestion
    obtain ⟨hscheme₁, hhost₁, hpath₁⟩ := not_mem_address hsharp.1
    obtain ⟨hscheme₂, hhost₂, hpath₂⟩ := not_mem_address hquestion
    constructor
    · subst hu
      refine ⟨⟨hscheme₁, hscheme₂, hcolon⟩, ⟨hhost₁, hhost₂, hslash⟩, ?_, ?_⟩
      · intro z hz
        exact ⟨hpath₁ z hz, hpath₂ z hz, not_mem_of_mem_pieces hz⟩
      · intro p hp
        have hwrite : sharp ∉ p.write :=
          fun hm => hsharp.2 (mem_lead_joined (List.mem_map_of_mem hp) hm)
        obtain ⟨z, hz, rfl⟩ := List.mem_map.mp hp
        refine ⟨hwrite, ?_, (cut_spec equals z).1⟩
        have hz' : Param.write (cut equals z) = z := write_cut z
        rw [hz']
        exact not_mem_of_mem_pieces hz
    · have hfragment : u.fragment = (cut sharp x).2 := hu ▸ rfl
      rw [write, haddress, hquery, hfragment, hx₁, hx]
  · cases h

theorem length_param (p : Param) :
    p.write.length = p.1.length + (p.2.map fun x => x.length + 1).getD 0 := by
  rw [Param.write, List.length_append]
  cases p.2 <;> rfl

/-- The octets of the path, slashes included. -/
def pathSize (path : List Octets) : ℕ := (path.map fun x => x.length + 1).sum

/-- The octets of the query, its delimiters included. -/
def querySize (query : List Param) : ℕ :=
  (query.map fun p => p.1.length + (p.2.map fun x => x.length + 1).getD 0 + 1).sum

theorem length_write (u : Url) :
    u.write.length = u.scheme.length + 3 + u.host.length + pathSize u.path + querySize u.query +
      (lead sharp u.fragment).length := by
  have hsome : ∀ c x, (lead c (some x)).length = x.length + 1 := fun _ _ => rfl
  have hquery : (lead question u.queryText).length = querySize u.query := by
    rw [queryText, length_lead_joined, List.map_map]
    simp only [Function.comp_def, length_param, querySize]
  rw [write, address, List.length_append, List.length_append, List.length_append, hquery, hsome,
    List.length_cons, List.length_cons, List.length_append, length_lead_joined, pathSize]
  omega

theorem shrinks_decoded : Shrinks (fun u => u.write.length) decoded := by
  have hpath : Shrinks pathSize (List.map decode) := shrinks_decode.list
  have hquery : Shrinks querySize (List.map (Prod.map decode (Option.map decode))) :=
    (shrinks_decode.prod shrinks_decode.option).list
  constructor
  · intro u
    have h₁ := hpath.le u.path
    have h₂ := hquery.le u.query
    simp only [length_write, decoded]
    omega
  · intro u hu
    have h₁ := hpath.le u.path
    have h₂ := hquery.le u.query
    simp only [length_write, decoded] at hu
    have hp := hpath.fixed u.path (by omega)
    have hq := hquery.fixed u.query (by omega)
    rw [decoded, hp, hq]

/-- Decoding shortens what it changes, so a URL written without escaping reads back exactly when
splitting finds its parts and there is nothing to decode in them. -/
theorem read_write_iff (u : Url) : read u.write = some u ↔ u.Separated ∧ u.decoded = u := by
  constructor
  · intro h
    obtain ⟨r, hr, hd⟩ := Option.map_eq_some_iff.mp h
    obtain ⟨hsep, hwrite⟩ := split_spec hr
    have hlength : r.decoded.write.length = r.write.length := by rw [hd, hwrite]
    have hfixed : r.decoded = r := shrinks_decoded.fixed r hlength
    rw [← hd, hfixed]
    exact ⟨hsep, hfixed⟩
  · rintro ⟨hsep, hd⟩
    rw [read, split_write hsep, Option.map_some, hd]

/-- Without a fragment, the query is what follows the first question mark. -/
theorem queryText_of_write {u : Url} (h : u.Separated) (hf : u.fragment = none)
    {front query : Octets} (hfront : question ∉ front)
    (hw : u.write = front ++ lead question (some query)) : u.queryText = some query := by
  have hcut : cut question u.write = (u.address, u.queryText) := by
    rw [write, hf, lead, List.append_nil]
    exact cut_append (h.path_free (.inr rfl)) _
  rw [hw, cut_append hfront] at hcut
  exact (Prod.mk.inj hcut).2.symm

theorem param_of_write {u : Url} (h : u.Separated) {p : Param} (hp : p ∈ u.query) :
    p = cut equals p.write := (cut_append (h.query p hp).2.2 p.2).symm

end Url

/-- What follows the last delimiter. -/
theorem eq_of_append_cons_eq {c : UInt8} {a b x y : Octets} (hx : c ∉ x) (hy : c ∉ y)
    (h : a ++ c :: x = b ++ c :: y) : x = y := by
  have hsplit := congrArg (List.splitOn c) h
  rw [List.splitOn_append_cons_self, List.splitOn_append_cons_self,
    List.splitOn_eq_singleton hx, List.splitOn_eq_singleton hy] at hsplit
  exact List.singleton_inj.mp (List.append_inj' hsplit rfl).2

end UrlParsing
