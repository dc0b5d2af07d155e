import LolStreams.Runs

/-! One stored value and any number of clients. A client loads the value, then writes a value
of its own unless it loaded that one, then writes a second value unless it is the same as the
first. Values are compared up to a relation that need not be equality. -/
namespace Register

variable {ι V : Type*}

inductive Phase (V : Type*)
  | waiting
  | found (loaded : V)
  | updated
  | finished

structure Client (V : Type*) where
  raw : V
  final : V

structure State (ι V : Type*) where
  stored : V
  phase : ι → Phase V

def start (v : V) : State ι V := ⟨v, fun _ => .waiting⟩

variable [DecidableEq ι] (same : V → V → Bool) (client : ι → Client V)

def advance (c : Client V) (stored : V) : Phase V → Option (V × Phase V)
  | .waiting => some (stored, .found stored)
  | .found loaded => some (if same loaded c.raw then stored else c.raw, .updated)
  | .updated => some (if same c.raw c.final then stored else c.final, .finished)
  | .finished => none

def step (s : State ι V) (i : ι) : Option (State ι V) :=
  (advance same (client i) s.stored (s.phase i)).map fun r =>
    ⟨r.1, Function.update s.phase i r.2⟩

variable {same client} {s : State ι V} {i : ι}

theorem step_waiting (h : s.phase i = .waiting) :
    step same client s i = some ⟨s.stored, Function.update s.phase i (.found s.stored)⟩ := by
  simp [step, h, advance]

theorem step_found {loaded : V} (h : s.phase i = .found loaded) :
    step same client s i = some
      ⟨if same loaded (client i).raw then s.stored else (client i).raw,
        Function.update s.phase i .updated⟩ := by
  simp [step, h, advance]

theorem step_updated (h : s.phase i = .updated) :
    step same client s i = some
      ⟨if same (client i).raw (client i).final then s.stored else (client i).final,
        Function.update s.phase i .finished⟩ := by
  simp [step, h, advance]

variable (same client) (s)

/-- The stored value is the second value of some client, or the first value of one that has
yet to write the second. -/
def Settled : Prop :=
  (∃ i, same s.stored (client i).final = true) ∨
    ∃ i, s.phase i = .updated ∧ same s.stored (client i).raw = true

structure Inv : Prop where
  written : ∀ i, s.phase i = .updated ∨ s.phase i = .finished → Settled same client s
  loaded : ∀ i v, s.phase i = .found v → v = s.stored ∨ Settled same client s

variable {same client} {s}

omit [DecidableEq ι] in
theorem Settled.inv (h : Settled same client s) : Inv same client s :=
  ⟨fun _ _ => h, fun _ _ _ => .inr h⟩

/-- A settled value stays settled while a client that has not written moves on. -/
theorem Settled.update (h : Settled same client s) {p : Phase V}
    (hi : s.phase i ≠ .updated) : Settled same client ⟨s.stored, Function.update s.phase i p⟩ := by
  rcases h with h | ⟨j, hj, hs⟩
  · exact .inl h
  · refine .inr ⟨j, ?_, hs⟩
    have hne : j ≠ i := fun he => hi (he ▸ hj)
    simpa [Function.update_of_ne hne] using hj

omit [DecidableEq ι] in
theorem inv_start (v : V) : Inv same client (start (ι := ι) v) := by
  constructor
  · rintro i (hi | hi) <;> cases hi
  · intro i w hi
    cases hi

section
variable (hrefl : ∀ i, same (client i).raw (client i).raw = true ∧
    same (client i).final (client i).final = true)
  (htrans : ∀ a b c, same a b = true → same b c = true → same a c = true)
include hrefl htrans

theorem inv_step {t : State ι V} (h : Inv same client s)
    (ht : step same client s i = some t) : Inv same client t := by
  cases hp : s.phase i with
  | waiting =>
    obtain rfl := Option.some.inj ((step_waiting hp).symm.trans ht)
    have hkeep : Settled same client s →
        Settled same client ⟨s.stored, Function.update s.phase i (.found s.stored)⟩ :=
      fun hs => hs.update (by simp [hp])
    constructor
    · intro j hj
      by_cases he : j = i
      · subst he
        simp at hj
      · simp only [Function.update_of_ne he] at hj
        exact hkeep (h.written j hj)
    · intro j v hj
      by_cases he : j = i
      · subst he
        left
        simpa using hj.symm
      · simp only [Function.update_of_ne he] at hj
        exact (h.loaded j v hj).imp id hkeep
  | found loaded =>
    obtain rfl := Option.some.inj ((step_found hp).symm.trans ht)
    have hphase : Function.update s.phase i .updated i = .updated := Function.update_self ..
    have hwrites : s.phase i ≠ .updated := by simp [hp]
    apply Settled.inv
    by_cases hs : same loaded (client i).raw = true
    · rw [if_pos hs]
      rcases h.loaded i loaded hp with rfl | hset
      · exact .inr ⟨i, hphase, hs⟩
      · exact hset.update hwrites
    · rw [if_neg hs]
      exact .inr ⟨i, hphase, (hrefl i).1⟩
  | updated =>
    obtain rfl := Option.some.inj ((step_updated hp).symm.trans ht)
    apply Settled.inv
    by_cases hs : same (client i).raw (client i).final = true
    · rw [if_pos hs]
      rcases h.written i (.inl hp) with hset | ⟨j, hj, hraw⟩
      · exact .inl hset
      · by_cases he : j = i
        · subst he
          have hfinal : same s.stored (client j).final = true := htrans _ _ _ hraw hs
          exact .inl ⟨j, hfinal⟩
        · have hphase : Function.update s.phase i .finished j = .updated := by
            rwa [Function.update_of_ne he]
          exact .inr ⟨j, hphase, hraw⟩
    · rw [if_neg hs]
      exact .inl ⟨i, (hrefl i).2⟩
  | finished => simp [step, hp, advance] at ht

/-- Whatever the interleaving, the last value is the second value of some client. -/
theorem final_of_finished {v : V} (h : Runs.Reaches (step same client) (start v) s)
    (hf : ∀ i, s.phase i = .finished) (i : ι) : ∃ j, same s.stored (client j).final = true := by
  have hi : Inv same client s := Runs.Reaches.invariant (inv_start v)
    (fun _ _ _ hi ht => inv_step hrefl htrans hi ht) h
  rcases hi.written i (.inr (hf i)) with hs | ⟨j, hj, _⟩
  · exact hs
  · simp [hf j] at hj

end

end Register
