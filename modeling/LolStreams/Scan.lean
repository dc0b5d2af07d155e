import LolStreams.DictRefinement
import LolStreams.ReverseCursor

/-! Scanning a dictionary of Redis with a cursor that its caller keeps, while anything may be
done to the dictionary between the calls. -/
namespace LolStreams

open Chaining ReverseCursor

/-! ### Reversing bits -/

/-- The loop of `rev`, which halves `s` and the blocks of the mask. -/
def revLoop : ℕ → ℕ → BitVec 64 → BitVec 64 → BitVec 64
  | 0, _, _, v => v
  | n + 1, s, mask, v =>
    if s / 2 = 0 then v
    else
      let mask := mask ^^^ (mask <<< (s / 2))
      revLoop n (s / 2) mask (((v >>> (s / 2)) &&& mask) ||| ((v <<< (s / 2)) &&& ~~~mask))

def rev (v : BitVec 64) : BitVec 64 := revLoop 7 64 (BitVec.allOnes 64) v

/-- One round swaps the bits at a distance `s`. -/
theorem swap_getLsbD {s : ℕ} {mask : BitVec 64} {i : ℕ} (hi : i < 64)
    (hmask : mask.getLsbD i = (i &&& s == 0)) (hlow : i &&& s = 0 → s + i = i ^^^ s)
    (hhigh : i &&& s ≠ 0 → s ≤ i ∧ i - s = i ^^^ s) (v : BitVec 64) :
    (((v >>> s) &&& mask) ||| ((v <<< s) &&& ~~~mask)).getLsbD i = v.getLsbD (i ^^^ s) := by
  rw [BitVec.getLsbD_or, BitVec.getLsbD_and, BitVec.getLsbD_and, BitVec.getLsbD_not,
    BitVec.getLsbD_ushiftRight, BitVec.getLsbD_shiftLeft, hmask]
  by_cases h : i &&& s = 0
  · rw [hlow h, beq_iff_eq.mpr h]
    simp
  · obtain ⟨hle, hsub⟩ := hhigh h
    rw [hsub, beq_eq_false_iff_ne.mpr h]
    simp [hi, hle]

/-- The rounds from a mask on swap the bits at all shorter distances. -/
theorem revLoop_getLsbD (k : ℕ) (hk : k ≤ 6) (mask v : BitVec 64)
    (hmask : ∀ i < 64, mask.getLsbD i = (i &&& 2 ^ k == 0)) (i : ℕ) (hi : i < 64) :
    (revLoop (k + 1) (2 ^ k) mask v).getLsbD i = v.getLsbD (i ^^^ (2 ^ k - 1)) := by
  induction k generalizing mask v with
  | zero => exact congrArg v.getLsbD (Nat.xor_zero i).symm
  | succ k ih =>
    have hblocks : ∀ k < 6, ∀ i < 64, ((i &&& 2 ^ (k + 1) == 0) ^^
        (!decide (i < 2 ^ k) && (i - 2 ^ k &&& 2 ^ (k + 1) == 0))) = (i &&& 2 ^ k == 0) := by
      decide
    have hswap : ∀ k < 6, ∀ i < 64, (i &&& 2 ^ k = 0 → 2 ^ k + i = i ^^^ 2 ^ k) ∧
        (i &&& 2 ^ k ≠ 0 → 2 ^ k ≤ i ∧ i - 2 ^ k = i ^^^ 2 ^ k) := by
      decide
    have hxor : ∀ k < 6, ∀ i < 64, i ^^^ (2 ^ k - 1) < 64 ∧
        i ^^^ (2 ^ k - 1) ^^^ 2 ^ k = i ^^^ (2 ^ (k + 1) - 1) := by
      decide
    have hhalf : 2 ^ (k + 1) / 2 = 2 ^ k := by
      rw [pow_succ, Nat.mul_div_cancel _ Nat.two_pos]
    have hround : ∀ i < 64, (mask ^^^ (mask <<< 2 ^ k)).getLsbD i = (i &&& 2 ^ k == 0) := by
      intro i hi
      rw [BitVec.getLsbD_xor, BitVec.getLsbD_shiftLeft, hmask i hi,
        hmask _ ((Nat.sub_le i _).trans_lt hi), ← hblocks k hk i hi]
      simp [hi]
    obtain ⟨hlt, hcompose⟩ := hxor k hk i hi
    obtain ⟨hlow, hhigh⟩ := hswap k hk _ hlt
    rw [revLoop, hhalf, if_neg (by positivity), ih (by omega) _ _ hround,
      swap_getLsbD hlt (hround _ hlt) hlow hhigh, hcompose]

theorem rev_eq_reverse (v : BitVec 64) : rev v = v.reverse := by
  apply BitVec.eq_of_getLsbD_eq
  intro i hi
  have hones : ∀ i < 64, (BitVec.allOnes 64).getLsbD i = (i &&& 2 ^ 6 == 0) := by decide
  have hflip : ∀ i < 64, i ^^^ (2 ^ 6 - 1) = 64 - 1 - i := by decide
  have hrounds := revLoop_getLsbD 6 (le_refl 6) (BitVec.allOnes 64) v hones i hi
  rw [BitVec.getLsbD_reverse, BitVec.getMsbD_eq_getLsbD, decide_eq_true hi, Bool.true_and, ← hflip i hi]
  exact hrounds

/-! ### Scanning -/

variable {κ β : Type}

def scanMask (t : Table κ β) : BitVec 64 := BitVec.ofNat 64 t.sizemask

/-- The entries at a cursor. -/
def scanBucket (t : Table κ β) (v : BitVec 64) : Option (List (κ × β)) :=
  t.buckets[(v &&& scanMask t).toNat]?

/-- The loop over the larger table; `none` also stands for a loop that has not ended. -/
def scanLarger (m0 : BitVec 64) (t : Table κ β) :
    ℕ → BitVec 64 → Option (List (κ × β) × BitVec 64)
  | 0, _ => none
  | n + 1, v => do
    let b ← scanBucket t v
    let v := (((v ||| m0) + 1) &&& ~~~m0) ||| (v &&& m0)
    if v &&& (m0 ^^^ scanMask t) = 0 then some (b, v)
    else do
      let (es, v) ← scanLarger m0 t n v
      some (b ++ es, v)

/-- The smaller table first. -/
def scanTables (d : Dict κ β) : Table κ β × Table κ β :=
  if d.ht1.size < d.ht0.size then (d.ht1, d.ht0) else (d.ht0, d.ht1)

theorem scanTables_le (d : Dict κ β) : (scanTables d).1.size ≤ (scanTables d).2.size := by
  rw [scanTables]
  split_ifs with h
  · exact h.le
  · exact Nat.le_of_not_lt h

/-- The entries that the callback is called with, and the next cursor. -/
def dictScan (d : Dict κ β) (v : BitVec 64) : Option (List (κ × β) × BitVec 64) :=
  if dictSize d = 0 then some ([], 0)
  else if ¬ dictIsRehashing d then do
    let b ← scanBucket d.ht0 v
    some (b, rev (rev (v ||| ~~~scanMask d.ht0) + 1))
  else do
    let (t0, t1) := scanTables d
    let b ← scanBucket t0 v
    let (es, v) ← scanLarger (scanMask t0) t1 t1.size v
    some (b ++ es, rev (rev (v ||| ~~~scanMask t0) + 1))

theorem rev_add_one (m v : BitVec 64) : rev (rev (v ||| ~~~m) + 1) = advance m v := by
  rw [rev_eq_reverse, rev_eq_reverse]
  rfl

/-! ### One table -/

/-- The number of bits under the mask. -/
def bits (t : Table κ β) : ℕ := min 64 (Nat.log 2 t.size)

/-- The cursor of a key, whatever the mask. -/
def cursorOf (hash : κ → UInt32) (k : κ) : BitVec 64 := BitVec.ofNat 64 (dictHashKey hash k)

theorem bits_le (t : Table κ β) : bits t ≤ 64 := min_le_left _ _

theorem bits_mono {t u : Table κ β} (h : t.size ≤ u.size) : bits t ≤ bits u :=
  min_le_min_left 64 (Nat.log_mono_right h)

/-- Half as many buckets are one bit less. -/
theorem bits_le_succ {t u : Table κ β} (h : t.size ≤ 2 * u.size) : bits t ≤ bits u + 1 := by
  have hlog : Nat.log 2 t.size ≤ Nat.log 2 u.size + 1 := by
    by_cases hu : u.size = 0
    · have ht : t.size = 0 := by omega
      simp [ht]
    · calc Nat.log 2 t.size ≤ Nat.log 2 (u.size * 2) := Nat.log_mono_right (by omega)
        _ = Nat.log 2 u.size + 1 := Nat.log_mul_base Nat.one_lt_two hu
  rw [bits, bits]
  omega

theorem two_pow_bits_le {t : Table κ β} (hs : t.size ≠ 0) : 2 ^ bits t ≤ t.size :=
  (Nat.pow_le_pow_right Nat.two_pos (min_le_right _ _)).trans (Nat.pow_log_le_self 2 hs)

section

variable {hash : κ → UInt32} {t : Table κ β} {n : ℕ}

theorem toNat_cursorOf (k : κ) : (cursorOf hash k).toNat = dictHashKey hash k := by
  have hlt : dictHashKey hash k < 2 ^ 32 := (hash k).toNat_lt
  rw [cursorOf, BitVec.toNat_ofNat]
  exact Nat.mod_eq_of_lt (by omega)

theorem scanMask_eq (hn : t.size = 2 ^ n) : scanMask t = mask 64 (bits t) := by
  rw [scanMask, mask, Table.sizemask, bits, hn, Nat.log_pow Nat.one_lt_two]
  rcases le_total n 64 with hle | hle
  · rw [min_eq_right hle]
  · rw [min_eq_left hle]
    apply BitVec.eq_of_getLsbD_eq
    intro i hi
    rw [BitVec.getLsbD_ofNat, BitVec.getLsbD_ofNat, Nat.testBit_two_pow_sub_one,
      Nat.testBit_two_pow_sub_one]
    simp [hi, hi.trans_le hle]

/-- The bucket of a key is the one that its cursor points at. -/
theorem index_eq_mod (hn : t.size = 2 ^ n) (k : κ) :
    t.index (dictHashKey hash) k = (cursorOf hash k).toNat % 2 ^ bits t := by
  have hlt : dictHashKey hash k < 2 ^ 32 := (hash k).toNat_lt
  rw [Table.index, Table.sizemask, hn, Nat.and_two_pow_sub_one_eq_mod, toNat_cursorOf, bits, hn,
    Nat.log_pow Nat.one_lt_two]
  rcases le_total n 64 with hle | hle
  · rw [min_eq_right hle]
  · have hpow : 2 ^ 64 ≤ 2 ^ n := Nat.pow_le_pow_right Nat.two_pos hle
    rw [min_eq_left hle, Nat.mod_eq_of_lt (by omega), Nat.mod_eq_of_lt (by omega)]

theorem scanBucket_spec (hp : t.Placed (dictHashKey hash)) (hn : t.size = 2 ^ n)
    (v : BitVec 64) :
    ∃ b, scanBucket t v = some b ∧ ∀ k x, (k, x) ∈ b ↔ (k, x) ∈ t.entries ∧
      v.toNat % 2 ^ bits t = (cursorOf hash k).toNat % 2 ^ bits t := by
  have hs : t.size ≠ 0 := by
    rw [hn]
    positivity
  have hlt : v.toNat % 2 ^ bits t < t.buckets.length :=
    (Nat.mod_lt _ (by positivity)).trans_le (two_pow_bits_le hs)
  obtain ⟨b, hb⟩ : ∃ b, t.buckets[v.toNat % 2 ^ bits t]? = some b :=
    ⟨_, List.getElem?_eq_getElem hlt⟩
  refine ⟨b, by rw [scanBucket, scanMask_eq hn, and_mask, hb], fun k x => ?_⟩
  rw [← index_eq_mod hn]
  constructor
  · intro hk
    exact ⟨Table.mem_entries hb hk, (hp.index_eq _ b hb (k, x) hk).symm⟩
  · rintro ⟨hk, hv⟩
    rw [hv] at hb
    exact (hp.mem_bucket_iff hb x).mpr hk

/-- The loop ends, and meets the buckets under the larger mask from the cursor on. -/
theorem scanLarger_spec (hp : t.Placed (dictHashKey hash)) (hn : t.size = 2 ^ n) {a : ℕ}
    (ha : a ≤ bits t) (fuel : ℕ) (v : BitVec 64)
    (hfuel : 2 ^ (bits t - a) ≤ fuel + between a (bits t) v) :
    ∃ es v', scanLarger (mask 64 a) t fuel v = some (es, v') ∧
      v'.toNat % 2 ^ a = v.toNat % 2 ^ a ∧
      ∀ k x, (k, x) ∈ es ↔ (k, x) ∈ t.entries ∧
        v.toNat % 2 ^ a = (cursorOf hash k).toNat % 2 ^ a ∧
        between a (bits t) v ≤ between a (bits t) (cursorOf hash k) := by
  have hlt := between_lt a (bits t) v
  induction fuel generalizing v with
  | zero => omega
  | succ fuel ih =>
    obtain ⟨b, hb, hhere⟩ := scanBucket_spec hp hn v
    have hlow := expand_mod v (ha.trans (bits_le t))
    have hhigh : between a (bits t) (expand (mask 64 a) v) =
        (between a (bits t) v + 1) % 2 ^ (bits t - a) := by
      rw [between, expand_div v ha (bits_le t), between, Nat.mod_add_mod]
    rw [scanLarger, hb]
    simp only [Option.bind_eq_bind, Option.bind_some]
    rw [← expand, scanMask_eq hn]
    by_cases hend : expand (mask 64 a) v &&& (mask 64 a ^^^ mask 64 (bits t)) = 0
    · refine ⟨b, expand (mask 64 a) v, by rw [if_pos hend], hlow, fun k x => ?_⟩
      rw [and_xor_mask_eq_zero_iff ha (bits_le t), hhigh] at hend
      have hlast : ¬ between a (bits t) v + 1 < 2 ^ (bits t - a) := by
        intro hsmall
        rw [Nat.mod_eq_of_lt hsmall] at hend
        omega
      have hltk := between_lt a (bits t) (cursorOf hash k)
      have heq : between a (bits t) v ≤ between a (bits t) (cursorOf hash k) ↔
          between a (bits t) v = between a (bits t) (cursorOf hash k) := by omega
      rw [hhere, mod_eq_iff_between ha, heq]
    · have hnext : between a (bits t) (expand (mask 64 a) v) = between a (bits t) v + 1 := by
        rw [and_xor_mask_eq_zero_iff ha (bits_le t), hhigh] at hend
        rw [hhigh]
        apply Nat.mod_eq_of_lt
        by_contra hwrap
        have heq : between a (bits t) v + 1 = 2 ^ (bits t - a) := by omega
        exact hend (by rw [heq, Nat.mod_self])
      obtain ⟨es, v', hes, hlow', hlater⟩ := ih (expand (mask 64 a) v) (by omega)
        (between_lt a (bits t) _)
      refine ⟨b ++ es, v', by rw [if_neg hend, hes]; rfl, hlow'.trans hlow, fun k x => ?_⟩
      rw [List.mem_append, hhere, hlater, mod_eq_iff_between ha, hlow, hnext]
      grind

end

/-! ### One call -/

/-- The table under whose mask the cursor counts. -/
def scanned (d : Dict κ β) : Table κ β :=
  if dictIsRehashing d then (scanTables d).1 else d.ht0

/-- A call meets a key: the cursor points at its bucket under the mask of the scanned table, and
is not past its bucket in the larger one. -/
def Met (hash : κ → UInt32) (d : Dict κ β) (v : BitVec 64) (k : κ) : Prop :=
  v.toNat % 2 ^ bits (scanned d) = (cursorOf hash k).toNat % 2 ^ bits (scanned d) ∧
    (dictIsRehashing d = true → ∀ x, (k, x) ∈ (scanTables d).2.entries →
      between (bits (scanTables d).1) (bits (scanTables d).2) v ≤
        between (bits (scanTables d).1) (bits (scanTables d).2) (cursorOf hash k))

namespace Dict.Holds

variable {hash : κ → UInt32} {d : Dict κ β} {m : κ → Option β}

/-- Both tables of a rehashing dictionary, the smaller one first. -/
theorem scanTables_spec (h : d.Holds hash m) (hbusy : dictIsRehashing d = true) :
    ∃ t0 t1 n0 n1, scanTables d = (t0, t1) ∧ t0.Placed (dictHashKey hash) ∧
      t1.Placed (dictHashKey hash) ∧ t0.size = 2 ^ n0 ∧ t1.size = 2 ^ n1 ∧
      Graph (t0.entries ++ t1.entries) m := by
  obtain ⟨hs0, hs1⟩ := h.allocated hbusy
  obtain ⟨n0, hn0⟩ := h.pow0 hs0
  obtain ⟨n1, hn1⟩ := h.pow1 hs1
  rw [scanTables]
  split_ifs with hlt
  · exact ⟨_, _, n1, n0, rfl, h.placed1, h.placed0, hn1, hn0,
      h.graph.perm List.perm_append_comm⟩
  · exact ⟨_, _, n0, n1, rfl, h.placed0, h.placed1, hn0, hn1, h.graph⟩

/-- What a call returns, and the cursor for the next one. -/
theorem scan (h : d.Holds hash m) (v : BitVec 64) :
    ∃ es v', dictScan d v = some (es, v') ∧
      ((v' = 0 ∧ ∀ k, m k = none) ∨ v' = advance (mask 64 (bits (scanned d))) v) ∧
      ∀ k x, (k, x) ∈ es ↔ m k = some x ∧ Met hash d v k := by
  rw [dictScan]
  by_cases hempty : dictSize d = 0
  · have hnil : d.ht0.entries ++ d.ht1.entries = [] := by
      rwa [dictSize, h.placed0.used_eq, h.placed1.used_eq, ← List.length_append,
        List.length_eq_zero_iff] at hempty
    have hnone : ∀ k x, m k ≠ some x := by
      intro k x hk
      rw [← h.graph.mem_iff, hnil] at hk
      cases hk
    refine ⟨[], 0, by rw [if_pos hempty], .inl ⟨rfl, fun k => ?_⟩, fun k x => ?_⟩
    · exact Option.eq_none_iff_forall_ne_some.mpr (hnone k)
    · simp [hnone]
  rw [if_neg hempty, scanned]
  simp only [Met, scanned]
  by_cases hbusy : dictIsRehashing d = true
  · obtain ⟨t0, t1, n0, n1, htables, hp0, hp1, hn0, hn1, hgraph⟩ := h.scanTables_spec hbusy
    have hle := scanTables_le d
    rw [htables] at hle
    have hs1 : t1.size ≠ 0 := by
      rw [hn1]
      positivity
    have hfuel : 2 ^ (bits t1 - bits t0) ≤ t1.size :=
      (Nat.pow_le_pow_right Nat.two_pos (Nat.sub_le _ _)).trans (two_pow_bits_le hs1)
    obtain ⟨b, hb, hhere⟩ := scanBucket_spec hp0 hn0 v
    obtain ⟨es, u, hes, hlow, hlater⟩ := scanLarger_spec hp1 hn1 (bits_mono hle) t1.size v
      (hfuel.trans (Nat.le_add_right _ _))
    have hnext := advance_congr (bits_le t0) hlow
    rw [if_neg (by simp [hbusy]), if_pos hbusy, htables]
    simp only [hb, scanMask_eq hn0, hes, rev_add_one, hnext, Option.bind_eq_bind,
      Option.bind_some]
    refine ⟨b ++ es, _, rfl, .inr rfl, fun k x => ?_⟩
    have hone : (k, x) ∈ t0.entries → ∀ y, (k, y) ∉ t1.entries := hgraph.not_mem_right x
    have hother : ∀ y, (k, x) ∈ t1.entries → (k, y) ∈ t1.entries → y = x := by
      intro y hx hy
      have hx' := (hgraph.mem_iff k x).mp (List.mem_append_right _ hx)
      have hy' := (hgraph.mem_iff k y).mp (List.mem_append_right _ hy)
      exact Option.some.inj (hy'.symm.trans hx')
    rw [List.mem_append, hhere, hlater, ← hgraph.mem_iff, List.mem_append]
    grind
  · have hidle : d.rehashidx = none := by simpa [dictIsRehashing] using hbusy
    have hs0 : d.ht0.size ≠ 0 := by
      intro hs
      rw [dictSize, h.idle hidle, h.placed0.used_eq, entries_of_size_eq_zero hs] at hempty
      exact hempty rfl
    obtain ⟨n0, hn0⟩ := h.pow0 hs0
    obtain ⟨b, hb, hhere⟩ := scanBucket_spec h.placed0 hn0 v
    have hgraph := h.map_eq_some_iff
    rw [if_pos hbusy, if_neg hbusy, hb]
    simp only [scanMask_eq hn0, rev_add_one, Option.bind_eq_bind, Option.bind_some]
    refine ⟨b, _, rfl, .inr rfl, fun k x => ?_⟩
    rw [hhere, hgraph, h.idle hidle]
    simp [hbusy, Table.entries, Table.empty]

end Dict.Holds

end LolStreams
