import LolStreams.Ruby

/-! The stored `Streamer` document: assignment of submitted values to its declared fields and
saving what has changed. A field that is absent from the stored document reads as `nil`. -/
namespace LolStreams

open Ruby

structure Streamer where
  name : Option String
  summonerNames : Option Hash
  gender : Option ℤ
  team : Option String
  rank : Option String

/-- Conversions of submitted values that go through printing or floating point: `to_s` of an
array or hash, and `Float(s).to_i`, with 0 where that raises. -/
structure Conversions where
  inspect : Obj → String
  float : String → ℤ

/-- For values that neither of the two is asked about. -/
def noConversions : Conversions := ⟨fun _ => "", fun _ => 0⟩

/-- `[[:space:]]` -/
def spaces : List Char :=
  ['\t', '\n', '\x0b', '\x0c', '\r', ' ', '\u0085', '\u00a0', '\u1680', '\u2000', '\u2001',
    '\u2002', '\u2003', '\u2004', '\u2005', '\u2006', '\u2007', '\u2008', '\u2009', '\u200a',
    '\u2028', '\u2029', '\u202f', '\u205f', '\u3000']

def blank (s : String) : Bool := s.toList.all fun c => c ∈ spaces

/-- What follows an optional sign. -/
def unsigned (cs : List Char) : List Char :=
  match cs with
  | [] => []
  | c :: ds => if c = '+' ∨ c = '-' then ds else c :: ds

/-- `/\A[-+]?[0-9]*[0-9.]0*\z/` -/
def isInteger (cs : List Char) : Bool :=
  match (unsigned cs).dropWhile Char.isDigit with
  | [] => unsigned cs ≠ []
  | '.' :: zeros => zeros.all fun c => c = '0'
  | _ => false

def digits (cs : List Char) : ℕ := Nat.ofDigitChars 10 (cs.takeWhile Char.isDigit) 0

/-- `s.to_i` for a string that passes `isInteger`. -/
def toI (cs : List Char) : ℤ :=
  if cs.head? = some '-' then -digits (unsigned cs) else digits (unsigned cs)

variable (conv : Conversions)

def mongoizeString : Obj → Option String
  | .nil => none
  | .str s => some s
  | o => some (conv.inspect o)

/-- Blank values become `nil`; an array or a hash is no number. -/
def mongoizeInteger : Obj → Option ℤ
  | .nil => none
  | .str s =>
    if blank s then none
    else if isInteger s.toList then some (toI s.toList)
    else some (conv.float s)
  | .arr xs => if xs.isEmpty then none else some 0
  | .hash es => if es.isEmpty then none else some 0

/-- Assign one field. A hash field takes a hash or `nil`. -/
def assign (doc : Streamer) (field : String) (value : Obj) : Except Exn Streamer :=
  match field with
  | "name" => .ok { doc with name := mongoizeString conv value }
  | "summoner_names" =>
    match value with
    | .nil => .ok { doc with summonerNames := none }
    | .hash es => .ok { doc with summonerNames := some es }
    | _ => .error .invalidValue
  | "gender" => .ok { doc with gender := mongoizeInteger conv value }
  | "team" => .ok { doc with team := mongoizeString conv value }
  | "rank" => .ok { doc with rank := mongoizeString conv value }
  | _ => .error .unknownAttribute

def assignEach (doc : Streamer) : Hash → Except Exn Streamer
  | [] => .ok doc
  | (field, value) :: rest =>
    match assign conv doc field value with
    | .ok doc => assignEach doc rest
    | .error e => .error e

/-- The assignments of `update_attributes`: what is empty assigns nothing. -/
def assignAttributes (doc : Streamer) : Obj → Except Exn Streamer
  | .nil => .ok doc
  | .str s => if s = "" then .ok doc else .error .noMethodError
  | .arr xs => if xs.isEmpty then .ok doc else .error .noMethodError
  | .hash es => assignEach conv doc es

/-- Ruby equality of two values of the field. -/
def sameNames (a b : Option Hash) : Bool :=
  match a, b with
  | none, none => true
  | some es, some fs => (Obj.hash es).eqv (.hash fs)
  | _, _ => false

/-- Write to the stored document the fields of `doc` that differ from what was loaded or last
saved. -/
def save (saved doc stored : Streamer) : Streamer where
  name := if saved.name = doc.name then stored.name else doc.name
  summonerNames :=
    if sameNames saved.summonerNames doc.summonerNames then stored.summonerNames
    else doc.summonerNames
  gender := if saved.gender = doc.gender then stored.gender else doc.gender
  team := if saved.team = doc.team then stored.team else doc.team
  rank := if saved.rank = doc.rank then stored.rank else doc.rank

theorem sameNames_symm {a b : Option Hash} (h : sameNames a b = true) : sameNames b a = true := by
  cases a <;> cases b <;> simp_all [sameNames]
  exact Obj.eqv_symm h

theorem sameNames_trans {a b c : Option Hash} (hab : sameNames a b = true)
    (hbc : sameNames b c = true) : sameNames a c = true := by
  cases a <;> cases b <;> cases c <;> simp_all [sameNames]
  exact Obj.eqv_trans hab hbc

/-! ### The gender field shows and reads back -/

/-- `<%= @streamer.gender %>` -/
def genderText (gender : Option ℤ) : String :=
  match gender with
  | none => ""
  | some n => toString n

theorem digits_toDigits (n : ℕ) : digits (Nat.toDigits 10 n) = n := by
  have hd : (Nat.toDigits 10 n).takeWhile Char.isDigit = Nat.toDigits 10 n := by
    rw [List.takeWhile_eq_self_iff]
    intro c hc
    exact Nat.isDigit_of_mem_toDigits (by omega) (by omega) hc
  rw [digits, hd, Nat.ofDigitChars_ten_toDigits]

theorem dropWhile_toDigits (n : ℕ) : (Nat.toDigits 10 n).dropWhile Char.isDigit = [] := by
  rw [List.dropWhile_eq_nil_iff]
  intro c hc
  exact Nat.isDigit_of_mem_toDigits (by omega) (by omega) hc

/-- A decimal number starts with a digit, which is no sign. -/
theorem toDigits_cons (n : ℕ) :
    ∃ c ds, Nat.toDigits 10 n = c :: ds ∧ c.isDigit = true ∧ c ≠ '+' ∧ c ≠ '-' := by
  cases h : Nat.toDigits 10 n with
  | nil => exact absurd h Nat.toDigits_ne_nil
  | cons c ds =>
    have hc : c.isDigit = true :=
      Nat.isDigit_of_mem_toDigits (b := 10) (n := n) (by omega) (by omega) (by simp [h])
    refine ⟨c, ds, rfl, hc, ?_, ?_⟩
    · rintro rfl
      exact absurd hc (by decide)
    · rintro rfl
      exact absurd hc (by decide)

theorem reads_toDigits (n : ℕ) :
    isInteger (Nat.toDigits 10 n) = true ∧ toI (Nat.toDigits 10 n) = n := by
  have hdrop := dropWhile_toDigits n
  have hdigits := digits_toDigits n
  obtain ⟨c, ds, hn, _, hplus, hminus⟩ := toDigits_cons n
  rw [hn] at hdrop hdigits ⊢
  have hu : unsigned (c :: ds) = c :: ds := by simp [unsigned, hplus, hminus]
  constructor
  · simp only [isInteger, hu, hdrop]
    simp
  · simp [toI, hu, hdigits, hminus]

theorem reads_minus_toDigits (n : ℕ) :
    isInteger ('-' :: Nat.toDigits 10 n) = true ∧ toI ('-' :: Nat.toDigits 10 n) = -n := by
  have hu : unsigned ('-' :: Nat.toDigits 10 n) = Nat.toDigits 10 n := by simp [unsigned]
  constructor
  · simp only [isInteger, hu, dropWhile_toDigits n]
    simp
  · simp [toI, hu, digits_toDigits]

theorem not_blank {s : String} {c : Char} (hm : c ∈ s.toList) (hc : c ∉ spaces) :
    blank s = false := by
  rw [blank, List.all_eq_false]
  exact ⟨c, hm, by simpa using hc⟩

theorem toList_genderText_nonneg {n : ℤ} (hn : 0 ≤ n) :
    (genderText (some n)).toList = Nat.toDigits 10 n.toNat := by
  rw [genderText, Int.toString_eq_repr, Int.repr_eq_if, if_pos hn, Nat.toList_repr]

theorem toList_genderText_neg {n : ℤ} (hn : ¬0 ≤ n) :
    (genderText (some n)).toList = '-' :: Nat.toDigits 10 (-n).toNat := by
  rw [genderText, Int.toString_eq_repr, Int.repr_eq_if, if_neg hn, String.toList_append,
    Nat.toList_repr]
  rfl

theorem mem_genderText {gender : Option ℤ} {c : Char} (hc : c ∈ (genderText gender).toList) :
    c.isDigit = true ∨ c = '-' := by
  cases gender with
  | none => simp [genderText] at hc
  | some n =>
    by_cases hn : 0 ≤ n
    · rw [toList_genderText_nonneg hn] at hc
      exact .inl (Nat.isDigit_of_mem_toDigits (by omega) (by omega) hc)
    · rw [toList_genderText_neg hn, List.mem_cons] at hc
      rcases hc with hc | hc
      · exact .inr hc
      · exact .inl (Nat.isDigit_of_mem_toDigits (by omega) (by omega) hc)

theorem mongoizeInteger_genderText (gender : Option ℤ) :
    mongoizeInteger conv (.str (genderText gender)) = gender := by
  cases gender with
  | none => rfl
  | some n =>
    have hspaces : ∀ c ∈ spaces, c.isDigit = false := by simp [spaces]
    by_cases hn : 0 ≤ n
    · have hlist := toList_genderText_nonneg hn
      obtain ⟨c, ds, hcons, hdigit, _⟩ := toDigits_cons n.toNat
      have hblank : blank (genderText (some n)) = false := by
        refine not_blank (c := c) (by rw [hlist, hcons]; exact List.mem_cons_self) ?_
        intro hm
        simp [hspaces c hm] at hdigit
      obtain ⟨hi, ht⟩ := reads_toDigits n.toNat
      simp only [mongoizeInteger, hblank, hlist, hi, ht, Int.toNat_of_nonneg hn, if_true,
        Bool.false_eq_true, if_false]
    · have hlist := toList_genderText_neg hn
      have hblank : blank (genderText (some n)) = false :=
        not_blank (c := '-') (by rw [hlist]; exact List.mem_cons_self) (by decide)
      obtain ⟨hi, ht⟩ := reads_minus_toDigits (-n).toNat
      have hneg : -((-n).toNat : ℤ) = n := by omega
      simp only [mongoizeInteger, hblank, hlist, hi, ht, hneg, if_true, Bool.false_eq_true,
        if_false]

end LolStreams
