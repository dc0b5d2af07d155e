import Mathlib

/-! Cursors that count from their highest bit down. Under a mask of `k` bits a cursor points at
a bucket; by the order of the reversed bits the buckets are intervals, for masks of every
length, so that a cursor keeps its place when the number of buckets changes. -/
namespace ReverseCursor

variable {w : ℕ}

def mask (w k : ℕ) : BitVec w := BitVec.ofNat w (2 ^ k - 1)

/-- The place of a cursor in the order of the reversed bits. -/
def pos (v : BitVec w) : ℕ := v.reverse.toNat

/-- Count up the reversed bits under the mask. -/
def advance (m v : BitVec w) : BitVec w := ((v ||| ~~~m).reverse + 1).reverse

/-- Count up the bits above the mask. -/
def expand (m v : BitVec w) : BitVec w := (((v ||| m) + 1) &&& ~~~m) ||| (v &&& m)

/-! ### Bits -/

theorem getLsbD_mask {k : ℕ} (i : ℕ) : (mask w k).getLsbD i = (decide (i < w) && decide (i < k)) := by
  rw [mask, BitVec.getLsbD_ofNat, Nat.testBit_two_pow_sub_one]

theorem testBit_pos (v : BitVec w) {i : ℕ} (hi : i < w) :
    (pos v).testBit i = v.toNat.testBit (w - 1 - i) := by
  rw [pos, BitVec.testBit_toNat, BitVec.getLsbD_reverse, BitVec.getMsbD_eq_getLsbD, BitVec.testBit_toNat]
  simp [hi]

theorem pos_lt (v : BitVec w) : pos v < 2 ^ w := v.reverse.isLt

/-- A place under a mask, as the bits it is made of. -/
theorem testBit_pos_div (v : BitVec w) {k : ℕ} (hk : k ≤ w) (i : ℕ) :
    (pos v / 2 ^ (w - k)).testBit i = (decide (i < k) && v.toNat.testBit (k - 1 - i)) := by
  rw [Nat.testBit_div_two_pow]
  by_cases hi : i < k
  · rw [testBit_pos v (by omega), decide_eq_true hi, Bool.true_and]
    congr 1
    omega
  · rw [decide_eq_false hi, Bool.false_and]
    apply Nat.testBit_lt_two_pow
    exact (pos_lt v).trans_le (Nat.pow_le_pow_right (by omega) (by omega))

/-- Two cursors point at the same bucket if their places agree under the mask. -/
theorem mod_eq_iff (v h : BitVec w) {k : ℕ} (hk : k ≤ w) :
    v.toNat % 2 ^ k = h.toNat % 2 ^ k ↔ pos v / 2 ^ (w - k) = pos h / 2 ^ (w - k) := by
  constructor
  · intro heq
    apply Nat.eq_of_testBit_eq
    intro i
    rw [testBit_pos_div v hk, testBit_pos_div h hk]
    by_cases hi : i < k
    · have hbit := congrArg (fun n => n.testBit (k - 1 - i)) heq
      have hlt : k - 1 - i < k := by omega
      simpa [Nat.testBit_mod_two_pow, hlt, hi] using hbit
    · simp [hi]
  · intro heq
    apply Nat.eq_of_testBit_eq
    intro i
    rw [Nat.testBit_mod_two_pow, Nat.testBit_mod_two_pow]
    by_cases hi : i < k
    · have hbit := congrArg (fun n => n.testBit (k - 1 - i)) heq
      have hlt : k - 1 - i < k := by omega
      have hback : k - 1 - (k - 1 - i) = i := by omega
      simpa [testBit_pos_div v hk, testBit_pos_div h hk, hlt, hback, hi] using hbit
    · simp [hi]

/-! ### Advancing -/

theorem pos_advance (v : BitVec w) {k : ℕ} (hk : k ≤ w) :
    pos (advance (mask w k) v) = (pos v / 2 ^ (w - k) + 1) * 2 ^ (w - k) % 2 ^ w := by
  have hones : (v ||| ~~~mask w k).reverse.toNat =
      2 ^ (w - k) * (pos v / 2 ^ (w - k)) + (2 ^ (w - k) - 1) := by
    apply Nat.eq_of_testBit_eq
    intro i
    have hlt : 2 ^ (w - k) - 1 < 2 ^ (w - k) := Nat.sub_lt (by positivity) Nat.one_pos
    rw [Nat.testBit_two_pow_mul_add _ hlt, Nat.testBit_two_pow_sub_one, BitVec.testBit_toNat,
      BitVec.getLsbD_reverse, BitVec.getMsbD_eq_getLsbD, BitVec.getLsbD_or, BitVec.getLsbD_not,
      getLsbD_mask, testBit_pos_div v hk]
    by_cases hi : i < w
    · by_cases hlow : i < w - k
      · have hnot : ¬ w - 1 - i < k := by omega
        simp [hi, hlow, hnot]
        omega
      · have hbit : w - 1 - i < k := by omega
        have hback : k - 1 - (i - (w - k)) = w - 1 - i := by omega
        have hrange : i - (w - k) < k := by omega
        simp [hi, hlow, hbit, hback, hrange, BitVec.testBit_toNat]
    · have hlow : ¬ i < w - k := by omega
      have hrange : ¬ i - (w - k) < k := by omega
      simp [hi, hlow, hrange]
  have hpow : 0 < 2 ^ (w - k) := by positivity
  have hsum : 2 ^ (w - k) * (pos v / 2 ^ (w - k)) + (2 ^ (w - k) - 1) + 1 =
      (pos v / 2 ^ (w - k) + 1) * 2 ^ (w - k) := by
    rw [Nat.add_assoc, Nat.sub_add_cancel hpow]
    ring
  have hone : (1 : BitVec w) = BitVec.ofNat w 1 := rfl
  rw [pos, advance, BitVec.reverse_reverse_eq, BitVec.toNat_add, hones, hone, BitVec.toNat_ofNat,
    Nat.add_mod_mod, hsum]

/-- An advanced cursor has no bits above the mask. -/
theorem advance_lt (v : BitVec w) {k : ℕ} (hk : k ≤ w) :
    (advance (mask w k) v).toNat < 2 ^ k := by
  apply Nat.lt_pow_two_of_testBit
  intro i hi
  by_cases hw : i < w
  · have hback : w - 1 - (w - 1 - i) = i := by omega
    have hlow : w - 1 - i < w := by omega
    have hno : ¬ w - k ≤ w - 1 - i := by omega
    have hbit := testBit_pos (advance (mask w k) v) hlow
    rw [pos_advance v hk, hback, Nat.testBit_mod_two_pow, Nat.testBit_mul_two_pow] at hbit
    simpa [hno] using hbit.symm
  · exact BitVec.testBit_toNat _ ▸ BitVec.getLsbD_of_ge _ i (by omega)

theorem pos_eq_zero_iff (v : BitVec w) : pos v = 0 ↔ v = 0 := by
  constructor
  · intro h
    exact BitVec.reverse_eq_zero_iff.mp (BitVec.eq_of_toNat_eq h)
  · rintro rfl
    exact congrArg BitVec.toNat (BitVec.reverse_eq_zero_iff.mpr rfl)

/-- Every place from the cursor to the next one belongs to the bucket of the cursor. -/
theorem same_bucket {v h : BitVec w} {k : ℕ} (hk : k ≤ w) (hle : pos v ≤ pos h)
    (hlt : advance (mask w k) v = 0 ∨ pos h < pos (advance (mask w k) v)) :
    v.toNat % 2 ^ k = h.toNat % 2 ^ k := by
  rw [mod_eq_iff v h hk]
  have hpow : 0 < 2 ^ (w - k) := by positivity
  have hlow : pos v / 2 ^ (w - k) ≤ pos h / 2 ^ (w - k) := Nat.div_le_div_right hle
  have hhigh : pos h / 2 ^ (w - k) < pos v / 2 ^ (w - k) + 1 := by
    rw [Nat.div_lt_iff_lt_mul hpow]
    rw [← pos_eq_zero_iff, pos_advance v hk] at hlt
    by_cases hwrap : (pos v / 2 ^ (w - k) + 1) * 2 ^ (w - k) < 2 ^ w
    · rw [Nat.mod_eq_of_lt hwrap] at hlt
      rcases hlt with hzero | hlt
      · have hpos : 0 < (pos v / 2 ^ (w - k) + 1) * 2 ^ (w - k) := by positivity
        omega
      · exact hlt
    · have hbound := pos_lt h
      omega
  omega

/-! ### Expanding -/

theorem or_mask (v : BitVec w) {k : ℕ} (hk : k ≤ w) :
    (v ||| mask w k).toNat = 2 ^ k * (v.toNat / 2 ^ k) + (2 ^ k - 1) := by
  apply Nat.eq_of_testBit_eq
  intro i
  have hlt : 2 ^ k - 1 < 2 ^ k := Nat.sub_lt (by positivity) Nat.one_pos
  rw [Nat.testBit_two_pow_mul_add _ hlt, Nat.testBit_two_pow_sub_one, BitVec.testBit_toNat,
    BitVec.getLsbD_or, getLsbD_mask, Nat.testBit_div_two_pow, BitVec.testBit_toNat]
  by_cases hi : i < k
  · have hw : i < w := by omega
    simp [hi, hw]
  · have hback : i - k + k = i := by omega
    simp [hi, hback]

theorem testBit_expand (v : BitVec w) (m : BitVec w) {i : ℕ} (hi : i < w) :
    (expand m v).toNat.testBit i =
      if m.getLsbD i then v.toNat.testBit i else ((v ||| m) + 1).toNat.testBit i := by
  rw [expand, BitVec.testBit_toNat, BitVec.getLsbD_or, BitVec.getLsbD_and, BitVec.getLsbD_and,
    BitVec.getLsbD_not, BitVec.testBit_toNat, BitVec.testBit_toNat]
  cases m.getLsbD i with
  | true => simp
  | false => simp [hi]

/-- The bits under the mask stay, -/
theorem expand_mod (v : BitVec w) {k : ℕ} (hk : k ≤ w) :
    (expand (mask w k) v).toNat % 2 ^ k = v.toNat % 2 ^ k := by
  apply Nat.eq_of_testBit_eq
  intro i
  rw [Nat.testBit_mod_two_pow, Nat.testBit_mod_two_pow]
  by_cases hi : i < k
  · have hw : i < w := by omega
    simp [testBit_expand v _ hw, getLsbD_mask, hi, hw]
  · simp [hi]

/-- and those above it count up. -/
theorem expand_div (v : BitVec w) {a b : ℕ} (hab : a ≤ b) (hb : b ≤ w) :
    (expand (mask w a) v).toNat / 2 ^ a % 2 ^ (b - a) =
      (v.toNat / 2 ^ a + 1) % 2 ^ (b - a) := by
  have hpow : 0 < 2 ^ a := by positivity
  have hsum : ((v ||| mask w a) + 1).toNat = 2 ^ a * (v.toNat / 2 ^ a + 1) % 2 ^ w := by
    have hone : (1 : BitVec w) = BitVec.ofNat w 1 := rfl
    rw [BitVec.toNat_add, or_mask v (hab.trans hb), hone, BitVec.toNat_ofNat, Nat.add_mod_mod,
      Nat.add_assoc, Nat.sub_add_cancel hpow, Nat.mul_add, Nat.mul_one]
  apply Nat.eq_of_testBit_eq
  intro i
  rw [Nat.testBit_mod_two_pow, Nat.testBit_mod_two_pow]
  by_cases hi : i < b - a
  · have hw : i + a < w := by omega
    have hnot : ¬ i + a < a := by omega
    rw [Nat.testBit_div_two_pow, testBit_expand v _ hw, getLsbD_mask, hsum]
    simp [hi, hw, Nat.testBit_mod_two_pow, Nat.testBit_two_pow_mul]
  · simp [hi]

theorem and_mask (v : BitVec w) (k : ℕ) : (v &&& mask w k).toNat = v.toNat % 2 ^ k := by
  apply Nat.eq_of_testBit_eq
  intro i
  rw [BitVec.testBit_toNat, BitVec.getLsbD_and, getLsbD_mask, Nat.testBit_mod_two_pow,
    BitVec.testBit_toNat]
  by_cases hi : i < w
  · simp [hi, Bool.and_comm]
  · simp [hi, BitVec.getLsbD_of_ge v i (by omega)]

/-- Where the cursor goes depends on the bits under the mask only. -/
theorem advance_congr {v u : BitVec w} {k : ℕ} (hk : k ≤ w)
    (h : u.toNat % 2 ^ k = v.toNat % 2 ^ k) :
    advance (mask w k) u = advance (mask w k) v := by
  have hpos : pos (advance (mask w k) u) = pos (advance (mask w k) v) := by
    rw [pos_advance u hk, pos_advance v hk, (mod_eq_iff u v hk).mp h]
  have hreverse := congrArg BitVec.reverse (BitVec.eq_of_toNat_eq hpos)
  rwa [BitVec.reverse_reverse_eq, BitVec.reverse_reverse_eq] at hreverse

/-! ### Two masks -/

/-- The bits between two masks. -/
def between (a b : ℕ) (v : BitVec w) : ℕ := v.toNat / 2 ^ a % 2 ^ (b - a)

theorem between_lt (a b : ℕ) (v : BitVec w) : between a b v < 2 ^ (b - a) :=
  Nat.mod_lt _ (by positivity)

/-- Two cursors point at the same bucket under the larger mask if they do so under the smaller
one and have the same bits between the masks. -/
theorem mod_eq_iff_between {v h : BitVec w} {a b : ℕ} (hab : a ≤ b) :
    v.toNat % 2 ^ b = h.toNat % 2 ^ b ↔
      v.toNat % 2 ^ a = h.toNat % 2 ^ a ∧ between a b v = between a b h := by
  have hpow : 2 ^ b = 2 ^ a * 2 ^ (b - a) := by rw [← pow_add, Nat.add_sub_cancel' hab]
  rw [between, between, hpow, Nat.mod_mul, Nat.mod_mul]
  constructor
  · intro heq
    have hlow := congrArg (fun n => n % 2 ^ a) heq
    simp only [Nat.add_mul_mod_self_left, Nat.mod_mod] at hlow
    rw [hlow, Nat.add_left_cancel_iff] at heq
    exact ⟨hlow, Nat.eq_of_mul_eq_mul_left (by positivity) heq⟩
  · rintro ⟨hlow, hhigh⟩
    rw [hlow, hhigh]

/-- The cursors of a bucket under the larger mask that come before another are the ones with
smaller bits between the masks, if these are all ones up to some bit. -/
theorem between_le {v h : BitVec w} {a b j : ℕ} (hab : a ≤ b) (hb : b ≤ w)
    (hlow : v.toNat % 2 ^ a = h.toNat % 2 ^ a) (hle : pos v ≤ pos h)
    (hones : between a b v = 2 ^ j - 1) : between a b v ≤ between a b h := by
  have hj : j ≤ b - a := by
    have hlt := between_lt a b v
    rw [hones] at hlt
    have hle : 2 ^ j ≤ 2 ^ (b - a) := by omega
    exact (Nat.pow_le_pow_iff_right Nat.one_lt_two).mp hle
  have hbits : ∀ i, i < j → v.toNat.testBit (a + i) = true := by
    intro i hi
    have hbit := congrArg (fun n => n.testBit i) hones
    rw [between] at hbit
    simp only [Nat.testBit_mod_two_pow, Nat.testBit_div_two_pow, Nat.testBit_two_pow_sub_one] at hbit
    rw [Nat.add_comm]
    simpa [hi, show i < b - a by omega] using hbit
  have hc : a + j ≤ w := by omega
  have hstep : ∀ x : ℕ, x / 2 ^ (w - (a + j)) / 2 ^ j = x / 2 ^ (w - a) := by
    intro x
    rw [Nat.div_div_eq_div_mul, ← pow_add]
    congr 2
    omega
  have htop : pos v / 2 ^ (w - (a + j)) % 2 ^ j = 2 ^ j - 1 := by
    apply Nat.eq_of_testBit_eq
    intro i
    rw [Nat.testBit_mod_two_pow, Nat.testBit_two_pow_sub_one, testBit_pos_div v hc]
    by_cases hi : i < j
    · have hbit := hbits (j - 1 - i) (by omega)
      have hback : a + j - 1 - i = a + (j - 1 - i) := by omega
      simp [hi, hback, hbit]
      omega
    · simp [hi]
  have hplace : pos v / 2 ^ (w - (a + j)) = pos h / 2 ^ (w - (a + j)) := by
    have hmono : pos v / 2 ^ (w - (a + j)) ≤ pos h / 2 ^ (w - (a + j)) :=
      Nat.div_le_div_right hle
    have hsame : pos v / 2 ^ (w - (a + j)) / 2 ^ j = pos h / 2 ^ (w - (a + j)) / 2 ^ j := by
      rw [hstep, hstep]
      exact (mod_eq_iff v h (by omega)).mp hlow
    have hv := Nat.div_add_mod (pos v / 2 ^ (w - (a + j))) (2 ^ j)
    have hh := Nat.div_add_mod (pos h / 2 ^ (w - (a + j))) (2 ^ j)
    have hlt : pos h / 2 ^ (w - (a + j)) % 2 ^ j < 2 ^ j := Nat.mod_lt _ (by positivity)
    rw [hsame] at hv
    omega
  have hmod := (mod_eq_iff v h hc).mpr hplace
  have hlast : ∀ x : BitVec w, between a b x % 2 ^ j = x.toNat % 2 ^ (a + j) / 2 ^ a := by
    intro x
    rw [between, Nat.mod_mod_of_dvd _ (Nat.pow_dvd_pow 2 hj), pow_add, Nat.mod_mul_right_div_self]
  have heq : between a b h % 2 ^ j = between a b v % 2 ^ j := by rw [hlast, hlast, hmod]
  have hself : between a b v % 2 ^ j = between a b v := by
    rw [hones]
    exact Nat.mod_eq_of_lt (Nat.sub_lt (by positivity) Nat.one_pos)
  have hmodle := Nat.mod_le (between a b h) (2 ^ j)
  omega

/-- A cursor with at most one bit above the smaller mask. -/
theorem exists_ones {v : BitVec w} {a : ℕ} (h : v.toNat < 2 ^ (a + 1)) (b : ℕ) :
    ∃ j, between a b v = 2 ^ j - 1 := by
  have htop : v.toNat / 2 ^ a < 2 := by
    rw [Nat.div_lt_iff_lt_mul (by positivity), Nat.mul_comm, ← pow_succ]
    exact h
  have hle := Nat.mod_le (v.toNat / 2 ^ a) (2 ^ (b - a))
  refine ⟨between a b v, ?_⟩
  have hbit : between a b v = 0 ∨ between a b v = 1 := by
    rw [between]
    omega
  rcases hbit with h0 | h1
  · rw [h0]
    rfl
  · rw [h1]
    rfl

theorem and_xor_mask_eq_zero_iff {a b : ℕ} (hab : a ≤ b) (hb : b ≤ w) (u : BitVec w) :
    u &&& (mask w a ^^^ mask w b) = 0 ↔ between a b u = 0 := by
  have hbit : ∀ i, (u &&& (mask w a ^^^ mask w b)).getLsbD i =
      (decide (a ≤ i) && decide (i < b) && u.toNat.testBit i) := by
    intro i
    rw [BitVec.getLsbD_and, BitVec.getLsbD_xor, getLsbD_mask, getLsbD_mask, BitVec.testBit_toNat]
    by_cases hw : i < w
    · by_cases hia : i < a
      · have hib : i < b := by omega
        simp [hw, hia, hib]
      · simp [hw, hia, Nat.le_of_not_lt hia, Bool.and_comm]
    · have hib : ¬ i < b := by omega
      simp [hw, hib]
  have hno : ∀ i, (0 : BitVec w).getLsbD i = false := fun i => BitVec.getLsbD_zero
  constructor
  · intro hzero
    apply Nat.eq_of_testBit_eq
    intro i
    rw [between, Nat.testBit_mod_two_pow, Nat.testBit_div_two_pow, Nat.zero_testBit]
    have hi := hbit (i + a)
    rw [hzero, hno] at hi
    by_cases hlt : i < b - a
    · have hib : i + a < b := by omega
      simpa [hib, hlt] using hi
    · simp [hlt]
  · intro hzero
    apply BitVec.eq_of_getLsbD_eq
    intro i hi
    rw [hbit, hno]
    by_cases hrange : a ≤ i ∧ i < b
    · have htest := congrArg (fun n => n.testBit (i - a)) hzero
      have hlt : i - a < b - a := by omega
      rw [between] at htest
      simpa [Nat.testBit_mod_two_pow, Nat.testBit_div_two_pow, hlt, hrange.1, hrange.2] using htest
    · by_cases hia : a ≤ i
      · simp [hia, show ¬ i < b by omega]
      · simp [hia]

end ReverseCursor
