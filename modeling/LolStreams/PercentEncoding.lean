import LolStreams.UrlParsing

/-! Percent-encoding. A text is written with an escape for each octet that is not plain, some
escapes may be taken back afterwards, and as long as the percent sign itself is escaped
decoding gives the text back. -/
namespace PercentEncoding

open UrlParsing

def hexUpper (n : UInt8) : UInt8 := if n < 10 then n + 48 else n + 55

variable (plain : UInt8 → Bool)

def encodeOctet (c : UInt8) : Octets :=
  if plain c then [c] else [percent, hexUpper (c / 16), hexUpper (c % 16)]

def encode (x : Octets) : Octets := x.flatMap (encodeOctet plain)

/-- Replace every escape of an octet, in either case, by the octet. -/
def restore (c : UInt8) : Octets → Octets
  | a :: b :: d :: rest =>
    if escaped a b d = some c then c :: restore c rest else a :: restore c (b :: d :: rest)
  | cs => cs

/-- Every percent sign starts an escape. -/
def wellEscaped : Octets → Bool
  | c :: a :: b :: rest =>
    if c = percent then (escaped c a b).isSome && wellEscaped rest else wellEscaped (a :: b :: rest)
  | c :: rest => c ≠ percent && wellEscaped rest
  | [] => true

def readUtf8 (x : Octets) : Option String := String.fromUTF8? ⟨x.toArray⟩

/-- Raises on a percent sign without two digits, and on escapes that are not UTF-8. -/
def decodeURIComponent (x : Octets) : Option String :=
  if wellEscaped x then readUtf8 (decode x) else none

variable {plain}

/-! ### One octet -/

theorem escaped_hexUpper (c : UInt8) :
    escaped percent (hexUpper (c / 16)) (hexUpper (c % 16)) = some c := by
  revert c
  decide +kernel

theorem hexUpper_ne_percent (c : UInt8) :
    hexUpper (c / 16) ≠ percent ∧ hexUpper (c % 16) ≠ percent := by
  revert c
  decide +kernel

theorem escaped_of_ne {c : UInt8} (h : c ≠ percent) (a b : UInt8) : escaped c a b = none :=
  if_neg h

theorem encode_cons (c : UInt8) (x : Octets) :
    encode plain (c :: x) = encodeOctet plain c ++ encode plain x := rfl

theorem encode_append (x y : Octets) : encode plain (x ++ y) = encode plain x ++ encode plain y :=
  List.flatMap_append

theorem encode_of_plain {x : Octets} (h : ∀ c ∈ x, plain c = true) : encode plain x = x := by
  induction x with
  | nil => rfl
  | cons c x ih =>
    rw [encode_cons, ih fun d hd => h d (List.mem_cons_of_mem c hd), encodeOctet,
      if_pos (h c List.mem_cons_self)]
    rfl

theorem encode_congr {plain' : UInt8 → Bool} {x : Octets} (h : ∀ c ∈ x, plain c = plain' c) :
    encode plain x = encode plain' x := by
  refine List.flatMap_congr fun c hc => ?_
  rw [encodeOctet, encodeOctet, h c hc]

theorem hexDigit_hexUpper (c : UInt8) :
    hexDigit (hexUpper (c / 16)) ≠ none ∧ hexDigit (hexUpper (c % 16)) ≠ none := by
  have h := escaped_hexUpper c
  rw [escaped, if_pos rfl] at h
  constructor
  · intro hnone
    simp [hnone] at h
  · intro hnone
    simp [hnone] at h

/-- What takes no part in escapes occurs only where it stood, if it is plain. -/
theorem not_mem_encode {d : UInt8} (hhex : hexDigit d = none) (hne : d ≠ percent) {x : Octets}
    (h : plain d = true → d ∉ x) : d ∉ encode plain x := by
  induction x with
  | nil => exact List.not_mem_nil
  | cons c x ih =>
    rw [encode_cons, List.mem_append, not_or]
    refine ⟨fun hd => ?_, ih fun hplain => (not_or.mp (List.mem_cons.not.mp (h hplain))).2⟩
    rw [encodeOctet] at hd
    split_ifs at hd with hc
    · rw [List.mem_singleton] at hd
      subst hd
      exact h hc List.mem_cons_self
    · obtain ⟨hhigh, hlow⟩ := hexDigit_hexUpper c
      simp only [List.mem_cons, List.not_mem_nil, or_false] at hd
      rcases hd with rfl | rfl | rfl
      · exact hne rfl
      · exact hhigh hhex
      · exact hlow hhex

/-! ### Decoding -/

theorem decode_cons {c : UInt8} (h : c ≠ percent) (x : Octets) : decode (c :: x) = c :: decode x := by
  match x with
  | [] => rfl
  | [a] => rfl
  | a :: b :: rest => simp only [decode, escaped_of_ne h]

theorem decode_of_notMem {x : Octets} (h : percent ∉ x) : decode x = x := by
  induction x with
  | nil => rfl
  | cons c x ih =>
    rw [List.mem_cons, not_or] at h
    rw [decode_cons (Ne.symm h.1), ih h.2]

theorem wellEscaped_cons {c : UInt8} (h : c ≠ percent) (x : Octets) :
    wellEscaped (c :: x) = wellEscaped x := by
  match x with
  | [] => simp [wellEscaped, h]
  | [a] => simp [wellEscaped, h]
  | a :: b :: rest => simp only [wellEscaped, if_neg h]

theorem restore_cons {c a : UInt8} (h : a ≠ percent) (x : Octets) :
    restore c (a :: x) = a :: restore c x := by
  match x with
  | [] => rfl
  | [b] => rfl
  | b :: d :: rest => simp [restore, escaped_of_ne h]

section

variable (hp : plain percent = false)
include hp

theorem ne_percent_of_plain {c : UInt8} (hc : plain c = true) : c ≠ percent := by
  rintro rfl
  simp [hp] at hc

theorem decode_encode (x : Octets) : decode (encode plain x) = x := by
  induction x with
  | nil => rfl
  | cons c x ih =>
    rw [encode_cons, encodeOctet]
    split_ifs with hc
    · rw [List.singleton_append, decode_cons (ne_percent_of_plain hp hc), ih]
    · simp only [List.cons_append, List.nil_append, decode, escaped_hexUpper, ih]

theorem wellEscaped_encode (x : Octets) : wellEscaped (encode plain x) = true := by
  induction x with
  | nil => rfl
  | cons c x ih =>
    rw [encode_cons, encodeOctet]
    split_ifs with hc
    · rw [List.singleton_append, wellEscaped_cons (ne_percent_of_plain hp hc), ih]
    · simp [wellEscaped, escaped_hexUpper, ih]

/-- Taking back the escapes of an octet is as good as not escaping it. -/
theorem restore_encode {c : UInt8} (hc : c ≠ percent) (x : Octets) :
    restore c (encode plain x) = encode (fun d => plain d || d == c) x := by
  induction x with
  | nil => rfl
  | cons d x ih =>
    rw [encode_cons, encode_cons, encodeOctet, encodeOctet, ← ih]
    by_cases hd : plain d = true
    · simp only [hd, Bool.true_or, if_true]
      rw [List.singleton_append, restore_cons (ne_percent_of_plain hp hd), List.singleton_append]
    · by_cases he : d = c
      · subst he
        simp [hd, restore, escaped_hexUpper]
      · obtain ⟨hhigh, hlow⟩ := hexUpper_ne_percent d
        simp only [hd, he, Bool.false_eq_true, if_false, List.cons_append, List.nil_append,
          restore, escaped_hexUpper, Option.some.injEq]
        rw [restore_cons hhigh, restore_cons hlow]
        simp [he]

theorem foldl_restore_encode {restored : List UInt8} (h : percent ∉ restored) (x : Octets) :
    restored.foldl (fun y c => restore c y) (encode plain x) =
      encode (fun d => plain d || restored.contains d) x := by
  induction restored generalizing plain with
  | nil => simp
  | cons c restored ih =>
    rw [List.mem_cons, not_or] at h
    have hp' : (plain percent || percent == c) = false := by simp [hp, h.1]
    rw [List.foldl_cons, restore_encode hp (Ne.symm h.1), ih hp' h.2]
    simp only [List.contains_cons, Bool.or_assoc]

end

/-! ### Text -/

theorem readUtf8_octets (s : String) : readUtf8 (octets s) = some s := by
  have hvalid : (ByteArray.mk (octets s).toArray) = s.toByteArray := by
    rw [octets]
  rw [readUtf8, hvalid, String.fromUTF8?, dif_pos s.isValidUTF8]
  rfl

theorem octets_eq_flatMap (s : String) : octets s = s.toList.flatMap String.utf8EncodeChar := by
  have hutf8 := s.utf8Encode_toList
  rw [octets, ← hutf8, List.utf8Encode]
  simp

/-- An octet below 128 stands for itself only. -/
theorem mem_toList_of_mem_octets {c : UInt8} (hc : c < 128) {s : String} (h : c ∈ octets s) :
    Char.ofNat c.toNat ∈ s.toList := by
  rw [octets_eq_flatMap, List.mem_flatMap] at h
  obtain ⟨a, ha, hca⟩ := h
  have hlow : a.val.toNat ≤ 0x7f := by
    by_contra hhigh
    have hc' : c.toNat < 128 := hc
    rw [String.utf8EncodeChar] at hca
    simp only [if_neg hhigh] at hca
    split_ifs at hca <;>
      simp only [List.mem_cons, List.not_mem_nil, or_false, ← UInt8.toNat_inj,
        UInt8.toNat_ofNat'] at hca <;> omega
  have hone : String.utf8EncodeChar a = [UInt8.ofNat a.val.toNat] := by
    rw [String.utf8EncodeChar]
    simp only [if_pos hlow]
  rw [hone, List.mem_singleton] at hca
  have hval : c.toNat = a.toNat := by
    rw [hca, UInt8.toNat_ofNat']
    exact Nat.mod_eq_of_lt (by omega)
  rw [hval, Char.ofNat_toNat]
  exact ha

/-- Encoding the pieces between the delimiters is encoding with the delimiter as plain. -/
theorem intercalate_map_encode {d : UInt8} {xs : List Octets} (h : ∀ x ∈ xs, d ∉ x) :
    [d].intercalate (xs.map (encode plain)) =
      encode (fun c => plain c || c == d) ([d].intercalate xs) := by
  have hpiece : ∀ x ∈ xs, encode plain x = encode (fun c => plain c || c == d) x := by
    intro x hx
    refine encode_congr fun c hc => ?_
    have hne : c ≠ d := fun he => h x hx (he ▸ hc)
    simp [hne]
  have hd : encode (fun c => plain c || c == d) [d] = [d] := encode_of_plain (by simp)
  rw [List.map_congr_left hpiece]
  clear h hpiece
  induction xs with
  | nil => rfl
  | cons x xs ih =>
    cases xs with
    | nil => simp
    | cons y ys =>
      rw [List.map_cons, List.map_cons, List.intercalate_cons_cons, ← List.map_cons, ih,
        List.intercalate_cons_cons, encode_append, encode_append, hd]

end PercentEncoding
