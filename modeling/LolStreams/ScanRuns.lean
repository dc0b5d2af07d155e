import LolStreams.Scan

/-! A client scans a dictionary: it calls `dictScan` with the cursor zero and then with the
cursor of the last call, until that is zero again. Between the calls anything may be done to
the dictionary. -/
namespace LolStreams

open Chaining ReverseCursor

variable {κ β : Type} [DecidableEq κ] {hash : κ → UInt32}

/-- A call with the dictionary it finds, its cursor, what it returns and the next cursor. -/
structure ScanCall (κ β : Type) where
  dict : Dict κ β
  cursor : BitVec 64
  returned : List (κ × β)
  next : BitVec 64

/-- Before each call some operations are done. -/
def scanRun (hash : κ → UInt32) (s : DictState κ β) (v : BitVec 64) :
    List (List (DictOp κ β)) → Option (List (ScanCall κ β))
  | [] => some []
  | ops :: rest => do
    let (t, _) ← s.run hash ops
    let (es, v') ← dictScan t.dict v
    let calls ← scanRun hash t v' rest
    some (⟨t.dict, v, es, v'⟩ :: calls)

/-- The calls go from one zero cursor to the next. -/
def Complete (calls : List (ScanCall κ β)) : Prop :=
  ∃ c, calls.getLast? = some c ∧ c.next = 0

/-! ### Calls -/

/-- A lookup at the time of a call. -/
def ScanCall.Has (hash : κ → UInt32) (c : ScanCall κ β) (k : κ) (x : β) : Prop :=
  findEntry hash c.dict k = some (some x)

theorem Dict.Holds.findEntry_eq_iff {d : Dict κ β} {m : κ → Option β} (h : d.Holds hash m)
    (k : κ) (x : β) : LolStreams.findEntry hash d k = some (some x) ↔ m k = some x := by
  by_cases hs : d.ht0.size = 0
  · have hnil : d.ht0.buckets = [] := List.eq_nil_of_length_eq_zero hs
    rw [h.map_of_size_eq_zero hs k, LolStreams.findEntry, hnil]
    simp
  · rw [h.findEntry hs k, Option.some.injEq]

/-- What holds of each call of a scan. -/
structure ScanCall.Correct (hash : κ → UInt32) (c : ScanCall κ β) : Prop where
  next_eq : (c.next = 0 ∧ ∀ k x, ¬ c.Has hash k x) ∨
    c.next = advance (mask 64 (bits (scanned c.dict))) c.cursor
  mem_iff : ∀ k x, (k, x) ∈ c.returned ↔ c.Has hash k x ∧ Met hash c.dict c.cursor k

theorem exists_scanRun {s : DictState κ β} {m : κ → Option β} (h : s.dict.Holds hash m)
    (v : BitVec 64) (blocks : List (List (DictOp κ β))) :
    ∃ calls, scanRun hash s v blocks = some calls ∧ calls.length = blocks.length ∧
      ∀ c ∈ calls, c.Correct hash := by
  induction blocks generalizing s m v with
  | nil => exact ⟨[], rfl, rfl, by simp⟩
  | cons ops blocks ih =>
    obtain ⟨t, ht, hh⟩ := run_refines h ops
    obtain ⟨es, v', hes, hnext, hmem⟩ := hh.scan v
    obtain ⟨calls, hcalls, hlength, hcorrect⟩ := ih hh v'
    refine ⟨⟨t.dict, v, es, v'⟩ :: calls, ?_, congrArg Nat.succ hlength, ?_⟩
    · rw [scanRun, ht]
      simp only [Option.bind_eq_bind, Option.bind_some, hes, hcalls]
    · intro c hc
      rcases List.mem_cons.mp hc with rfl | hc
      · constructor
        · refine hnext.imp_left fun hnone => ⟨hnone.1, fun k x => ?_⟩
          rw [ScanCall.Has, hh.findEntry_eq_iff, hnone.2 k]
          simp
        · intro k x
          rw [ScanCall.Has, hh.findEntry_eq_iff]
          exact hmem k x
      · exact hcorrect c hc

theorem scanRun_correct {s : DictState κ β} {m : κ → Option β} (h : s.dict.Holds hash m)
    {v : BitVec 64} {blocks : List (List (DictOp κ β))} {calls : List (ScanCall κ β)}
    (hcalls : scanRun hash s v blocks = some calls) : ∀ c ∈ calls, c.Correct hash := by
  obtain ⟨calls', hcalls', -, hcorrect⟩ := exists_scanRun h v blocks
  obtain rfl := Option.some.inj (hcalls.symm.trans hcalls')
  exact hcorrect

theorem scanRun_cons {s : DictState κ β} {v : BitVec 64} {ops : List (DictOp κ β)}
    {blocks : List (List (DictOp κ β))} {calls : List (ScanCall κ β)}
    (h : scanRun hash s v (ops :: blocks) = some calls) :
    ∃ t c rest, (∃ replies, s.run hash ops = some (t, replies)) ∧ calls = c :: rest ∧
      c.dict = t.dict ∧ c.cursor = v ∧ dictScan t.dict v = some (c.returned, c.next) ∧
      scanRun hash t c.next blocks = some rest := by
  rw [scanRun] at h
  obtain ⟨⟨t, replies⟩, ht, h⟩ := Option.bind_eq_some_iff.mp h
  obtain ⟨⟨es, v'⟩, hes, h⟩ := Option.bind_eq_some_iff.mp h
  obtain ⟨rest, hrest, h⟩ := Option.bind_eq_some_iff.mp h
  obtain rfl := Option.some.inj h
  exact ⟨t, ⟨t.dict, v, es, v'⟩, rest, ⟨replies, ht⟩, rfl, rfl, rfl, hes, hrest⟩

/-! ### Completeness -/

/-- The place of a key is between the cursors of a call. -/
def ScanCall.Due (hash : κ → UInt32) (c : ScanCall κ β) (k : κ) : Prop :=
  pos c.cursor ≤ pos (cursorOf hash k) ∧ (c.next = 0 ∨ pos (cursorOf hash k) < pos c.next)

/-- The bits of the cursor between the masks are ones up to some bit and zeros from there. -/
def ScanCall.Aligned (c : ScanCall κ β) : Prop :=
  dictIsRehashing c.dict = true →
    ∃ j, between (bits (scanTables c.dict).1) (bits (scanTables c.dict).2) c.cursor = 2 ^ j - 1

/-- Each key is due at one of the calls. -/
theorem exists_due (blocks : List (List (DictOp κ β))) (s : DictState κ β) (v : BitVec 64)
    (calls : List (ScanCall κ β)) (h : scanRun hash s v blocks = some calls)
    (hend : Complete calls) (k : κ) (hk : pos v ≤ pos (cursorOf hash k)) :
    ∃ c ∈ calls, c.Due hash k := by
  induction blocks generalizing s v calls with
  | nil =>
    obtain rfl := Option.some.inj h
    obtain ⟨c, hc, -⟩ := hend
    cases hc
  | cons ops blocks ih =>
    obtain ⟨t, c, rest, -, rfl, -, rfl, -, hrest⟩ := scanRun_cons h
    by_cases hdue : c.next = 0 ∨ pos (cursorOf hash k) < pos c.next
    · exact ⟨c, List.mem_cons_self, hk, hdue⟩
    · rw [not_or, not_lt] at hdue
      have hlater : Complete rest := by
        obtain ⟨l, hl, hzero⟩ := hend
        refine ⟨l, ?_, hzero⟩
        cases rest with
        | nil =>
          obtain rfl := Option.some.inj hl
          exact absurd hzero hdue.1
        | cons c' rest => rwa [List.getLast?_cons_cons] at hl
      obtain ⟨c', hc', hdue'⟩ := ih t c.next rest hrest hlater hdue.2
      exact ⟨c', List.mem_cons_of_mem c hc', hdue'⟩

/-- A call meets what is due if its cursor is aligned. -/
theorem ScanCall.Correct.mem_returned {c : ScanCall κ β} (h : c.Correct hash) (ha : c.Aligned)
    {k : κ} {x : β} (hx : c.Has hash k x) (hdue : c.Due hash k) : (k, x) ∈ c.returned := by
  obtain ⟨hle, hlt⟩ := hdue
  rcases h.next_eq with ⟨-, hnone⟩ | hnext
  · exact absurd hx (hnone k x)
  rw [hnext] at hlt
  have hsame := same_bucket (bits_le _) hle hlt
  refine (h.mem_iff k x).mpr ⟨hx, hsame, fun hbusy _ _ => ?_⟩
  obtain ⟨j, hj⟩ := ha hbusy
  rw [scanned, if_pos hbusy] at hsame
  exact between_le (bits_mono (scanTables_le c.dict)) (bits_le _) hsame hle hj

/-- The table on which the cursor counts has at least half as many buckets as at the call
before. -/
def HalvesAtMost (c c' : ScanCall κ β) : Prop :=
  (scanned c.dict).size ≤ 2 * (scanned c'.dict).size

instance (c c' : ScanCall κ β) : Decidable (HalvesAtMost c c') := Nat.decLe _ _

/-- No cursor has more than one bit above the mask of the smaller table then. -/
theorem aligned_of_halves (blocks : List (List (DictOp κ β))) (s : DictState κ β) (v : BitVec 64)
    (calls : List (ScanCall κ β)) (h : scanRun hash s v blocks = some calls)
    (hcorrect : ∀ c ∈ calls, c.Correct hash) (hhalves : calls.IsChain HalvesAtMost)
    (hv : ∀ c ∈ calls.head?, v.toNat < 2 ^ (bits (scanned c.dict) + 1)) :
    ∀ c ∈ calls, c.Aligned := by
  induction blocks generalizing s v calls with
  | nil =>
    obtain rfl := Option.some.inj h
    simp
  | cons ops blocks ih =>
    obtain ⟨t, c, rest, -, rfl, -, rfl, -, hrest⟩ := scanRun_cons h
    have hnext : ∀ d ∈ rest.head?, c.next.toNat < 2 ^ (bits (scanned d.dict) + 1) := by
      intro d hd
      have hhalf : HalvesAtMost c d := (List.isChain_cons.mp hhalves).1 d hd
      rcases (hcorrect c List.mem_cons_self).next_eq with ⟨hzero, -⟩ | hadvance
      · rw [hzero]
        exact Nat.two_pow_pos _
      · rw [hadvance]
        exact (advance_lt c.cursor (bits_le _)).trans_le
          (Nat.pow_le_pow_right Nat.two_pos (bits_le_succ hhalf))
    intro d hd
    rcases List.mem_cons.mp hd with rfl | hd
    · intro hbusy
      have hlt := hv d rfl
      rw [scanned, if_pos hbusy] at hlt
      exact exists_ones hlt _
    · have hlater : ∀ c ∈ rest, c.Correct hash := fun c hc =>
        hcorrect c (List.mem_cons_of_mem _ hc)
      exact ih t c.next rest hrest hlater (List.isChain_cons.mp hhalves).2 hnext d hd

/-- Whatever a call returns is there at that call; and unless the table shrinks to less than
half from one call to the next, the scan returns every key that is there at all its calls. -/
theorem scan_is_complete {canResize : Bool} {blocks : List (List (DictOp κ β))}
    {calls : List (ScanCall κ β)}
    (h : scanRun hash ⟨dictCreate, canResize⟩ 0 blocks = some calls) (hend : Complete calls)
    (hhalves : calls.IsChain HalvesAtMost) :
    (∀ c ∈ calls, ∀ k x, (k, x) ∈ c.returned → c.Has hash k x) ∧
      ∀ k, (∀ c ∈ calls, ∃ x, c.Has hash k x) → ∃ c ∈ calls, ∃ x, (k, x) ∈ c.returned := by
  have hcorrect := scanRun_correct holds_dictCreate h
  have haligned : ∀ c ∈ calls, c.Aligned :=
    aligned_of_halves blocks _ 0 calls h hcorrect hhalves fun c _ => Nat.two_pow_pos _
  constructor
  · intro c hc k x hx
    exact (((hcorrect c hc).mem_iff k x).mp hx).1
  · intro k hk
    have hzero : pos (0 : BitVec 64) ≤ pos (cursorOf hash k) := by
      rw [(pos_eq_zero_iff 0).mpr rfl]
      exact Nat.zero_le _
    obtain ⟨c, hc, hdue⟩ := exists_due blocks _ 0 calls h hend k hzero
    obtain ⟨x, hx⟩ := hk c hc
    exact ⟨c, hc, x, (hcorrect c hc).mem_returned (haligned c hc) hx hdue⟩

def byNumber (k : ℕ) : UInt32 := UInt32.ofNat k

def scanCalls (blocks : List (List (DictOp ℕ Unit))) : List (ScanCall ℕ Unit) :=
  (scanRun byNumber ⟨dictCreate, true⟩ 0 blocks).getD []

/-- Eight buckets are resized to four after the first call, and a lookup moves some keys. -/
def halving : List (List (DictOp ℕ Unit)) :=
  [[.expand 8, .add 1 (), .add 5 ()], [.resize], [.find 1], [], []]

theorem scan_is_complete_halving :
    (∃ c ∈ scanCalls halving, ∃ x, (1, x) ∈ c.returned) ∧
      ∃ c ∈ scanCalls halving, ∃ x, (5, x) ∈ c.returned := by
  have hrun : scanRun byNumber ⟨dictCreate, true⟩ 0 halving = some (scanCalls halving) := rfl
  have hend : Complete (scanCalls halving) := ⟨_, rfl, rfl⟩
  have hhalves : (scanCalls halving).IsChain HalvesAtMost := by decide
  have hthere : ∀ c ∈ scanCalls halving, findEntry byNumber c.dict 1 = some (some ()) ∧
      findEntry byNumber c.dict 5 = some (some ()) := by
    decide
  obtain ⟨_, hcomplete⟩ := scan_is_complete hrun hend hhalves
  exact ⟨hcomplete 1 fun c hc => ⟨(), (hthere c hc).1⟩, hcomplete 5 fun c hc => ⟨(), (hthere c hc).2⟩⟩

/-- Sixteen buckets become four after the first call. -/
def quartering : List (List (DictOp ℕ Unit)) :=
  [[.expand 16, .add 4 ()], [.resize], [], [], []]

/-- The comment above `dictScan` promises more than the loop over the larger table keeps: it
starts at the cursor, and leaves out the buckets whose bits above the smaller mask are less. -/
theorem quartering_scan_misses :
    ¬ ∀ blocks calls, scanRun byNumber ⟨(dictCreate : Dict ℕ Unit), true⟩ 0 blocks = some calls →
      Complete calls → ∀ k, (∀ c ∈ calls, ∃ x, c.Has byNumber k x) →
        ∃ c ∈ calls, ∃ x, (k, x) ∈ c.returned := by
  intro h
  have hthere : ∀ c ∈ scanCalls quartering, findEntry byNumber c.dict 4 = some (some ()) := by
    decide
  have hmissed : ∀ c ∈ scanCalls quartering, c.returned = [] := by decide
  obtain ⟨c, hc, x, hx⟩ := h quartering (scanCalls quartering) rfl ⟨_, rfl, rfl⟩ 4
    fun c hc => ⟨(), hthere c hc⟩
  rw [hmissed c hc] at hx
  cases hx

end LolStreams
