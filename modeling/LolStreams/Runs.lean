import Mathlib

/-! Runs of a partial labelled step function. `none` means that the event is not enabled.
A guarded run is one whose every step meets a condition on the state before it and on the
event; an invariant of the guarded steps holds throughout. -/
namespace Runs

variable {σ ε : Type*}

def run (step : σ → ε → Option σ) : σ → List ε → Option σ
  | s, [] => some s
  | s, e :: es => (step s e).bind fun t => run step t es

inductive Guarded (step : σ → ε → Option σ) (ok : σ → ε → Prop) (s : σ) : σ → Prop
  | refl : Guarded step ok s s
  | tail {t u : σ} {e : ε} (prior : Guarded step ok s t) (hok : ok t e)
      (hstep : step t e = some u) : Guarded step ok s u

/-- Reachability is the run with no condition on its steps. -/
def Reaches (step : σ → ε → Option σ) : σ → σ → Prop := Guarded step fun _ _ => True

variable {step : σ → ε → Option σ} {ok : σ → ε → Prop} {s t u : σ}

theorem Guarded.invariant {I : σ → Prop} (hs : I s)
    (hstep : ∀ t e u, I t → ok t e → step t e = some u → I u) (h : Guarded step ok s t) :
    I t := by
  induction h with
  | refl => exact hs
  | tail _ hok he ih => exact hstep _ _ _ ih hok he

theorem Reaches.invariant {I : σ → Prop} (hs : I s)
    (hstep : ∀ t e u, I t → step t e = some u → I u) (h : Reaches step s t) : I t :=
  Guarded.invariant hs (fun t e u hi _ he => hstep t e u hi he) h

theorem Guarded.trans (h : Guarded step ok s t) (g : Guarded step ok t u) :
    Guarded step ok s u := by
  induction g with
  | refl => exact h
  | tail _ hok he ih => exact ih.tail hok he

/-- Two systems with the same events, the second of which can follow every step of the
first. -/
theorem Reaches.simulate {τ : Type*} {step' : τ → ε → Option τ} {R : σ → τ → Prop}
    (hstep : ∀ t e u t', R t t' → step t e = some u → ∃ u', step' t' e = some u' ∧ R u u')
    (h : Reaches step s t) {s' : τ} (hs : R s s') : ∃ t', Reaches step' s' t' ∧ R t t' := by
  induction h with
  | refl => exact ⟨s', .refl, hs⟩
  | tail _ _ he ih =>
    obtain ⟨t', ht', hr⟩ := ih
    obtain ⟨u', hu', hr'⟩ := hstep _ _ _ _ hr he
    exact ⟨u', ht'.tail trivial hu', hr'⟩

/-- Two systems each of which can follow every step of the other run in step. -/
theorem run_rel {τ : Type*} {step' : τ → ε → Option τ} {R : σ → τ → Prop}
    (hstep : ∀ s t e, R s t → Option.Rel R (step s e) (step' t e)) {t : τ} (hs : R s t)
    (es : List ε) : Option.Rel R (run step s es) (run step' t es) := by
  induction es generalizing s t with
  | nil => exact .some hs
  | cons e es ih =>
    have he := hstep s t e hs
    rw [run, run]
    generalize step s e = u at he ⊢
    generalize step' t e = v at he ⊢
    cases he with
    | none => exact .none
    | some hr => exact ih hr

/-- A run of events that are allowed in every state. -/
theorem guarded_of_run (es : List ε) (hok : ∀ e ∈ es, ∀ s, ok s e) (h : run step s es = some t) :
    Guarded step ok s t := by
  induction es generalizing s with
  | nil =>
    cases h
    exact .refl
  | cons e es ih =>
    obtain ⟨u, hu, hr⟩ := Option.bind_eq_some_iff.mp h
    have hrest := ih (fun e' he' => hok e' (List.mem_cons_of_mem e he')) hr
    exact (Guarded.refl.tail (hok e List.mem_cons_self s) hu).trans hrest

/-- Every prefix of an executed event list is a run, so its end is reached. -/
theorem reaches_of_run {es : List ε} (h : run step s es = some t) : Reaches step s t :=
  guarded_of_run es (fun _ _ _ => trivial) h

/-- Every step of the run meets the condition. -/
def Throughout (step : σ → ε → Option σ) (ok : σ → ε → Prop) : σ → List ε → Prop
  | _, [] => True
  | s, e :: es => ok s e ∧ ∀ t, step s e = some t → Throughout step ok t es

theorem run_cons {e : ε} {es : List ε} :
    run step s (e :: es) = some u ↔ ∃ t, step s e = some t ∧ run step t es = some u :=
  Option.bind_eq_some_iff

/-- Where a step outside the condition does damage that no later step repairs, the runs that
end well are those whose every step meets the condition. -/
theorem throughout_iff {I B : σ → Prop}
    (hok : ∀ s e t, I s → ok s e → step s e = some t → I t)
    (hbreak : ∀ s e t, I s → ¬ ok s e → step s e = some t → B t)
    (hbroken : ∀ s e t, B s → step s e = some t → B t) (hdisj : ∀ s, B s → ¬ I s)
    {es : List ε} (hs : I s) (h : run step s es = some t) :
    I t ↔ Throughout step ok s es := by
  have hlast : ∀ es s t, B s → run step s es = some t → B t := by
    intro es
    induction es with
    | nil =>
      intro s t hb hr
      cases hr
      exact hb
    | cons e es ih =>
      intro s t hb hr
      obtain ⟨u, hu, hr⟩ := run_cons.mp hr
      exact ih u t (hbroken s e u hb hu) hr
  induction es generalizing s with
  | nil =>
    cases h
    exact iff_of_true hs trivial
  | cons e es ih =>
    obtain ⟨u, hu, hr⟩ := run_cons.mp h
    by_cases he : ok s e
    · have hrest : I t ↔ Throughout step ok u es := ih (hok s e u hs he hu) hr
      refine hrest.trans ⟨fun hall => ⟨he, fun v hv => ?_⟩, fun hall => hall.2 u hu⟩
      rwa [← Option.some.inj (hu.symm.trans hv)]
    · have hbad : B t := hlast es u t (hbreak s e u hs he hu) hr
      exact iff_of_false (hdisj t hbad) fun hall => he hall.1

/-! ### Sums over runs -/

/-- What the steps of a run add up to. -/
def total (step : σ → ε → Option σ) (f : σ → ε → ℕ) : σ → List ε → ℕ
  | _, [] => 0
  | s, e :: es =>
    f s e + match step s e with
      | some t => total step f t es
      | none => 0

theorem total_cons {f : σ → ε → ℕ} {e : ε} (h : step s e = some t) (es : List ε) :
    total step f s (e :: es) = f s e + total step f t es := by
  simp only [total, h]

/-- Over a run that gets to its end, the steps of a kind are the events of that kind. -/
theorem total_eq_countP (p : ε → Bool) {es : List ε} (h : run step s es = some t) :
    total step (fun _ e => if p e then 1 else 0) s es = es.countP p := by
  induction es generalizing s with
  | nil => rfl
  | cons e es ih =>
    obtain ⟨u, hu, hr⟩ := run_cons.mp h
    rw [total_cons hu, ih hr, List.countP_cons, Nat.add_comm]

theorem total_add (f g : σ → ε → ℕ) (es : List ε) :
    total step (fun s e => f s e + g s e) s es = total step f s es + total step g s es := by
  induction es generalizing s with
  | nil => rfl
  | cons e es ih =>
    simp only [total]
    cases step s e with
    | none => simp only [Nat.add_zero]
    | some t =>
      have hrest := @ih t
      simp only [hrest]
      omega

theorem run_gain {measure : σ → ℕ} {inward : σ → ε → ℕ}
    (hstep : ∀ s e t, step s e = some t → measure t = measure s + inward s e)
    {es : List ε} (h : run step s es = some t) :
    measure t = measure s + total step inward s es := by
  induction es generalizing s with
  | nil =>
    cases h
    rfl
  | cons e es ih =>
    obtain ⟨u, hu, hr⟩ := run_cons.mp h
    have hhead := hstep s e u hu
    have htail := ih hr
    rw [total_cons hu]
    omega

/-- Where every step keeps the balance of what comes in and what goes out, so does every run. -/
theorem run_balance {measure : σ → ℕ} {inward outward : σ → ε → ℕ}
    (hstep : ∀ s e t, step s e = some t → measure t + outward s e = measure s + inward s e)
    {es : List ε} (h : run step s es = some t) :
    measure t + total step outward s es = measure s + total step inward s es := by
  induction es generalizing s with
  | nil =>
    cases h
    rfl
  | cons e es ih =>
    obtain ⟨u, hu, hr⟩ := run_cons.mp h
    have hhead := hstep s e u hu
    have htail := ih hr
    rw [total_cons hu, total_cons hu]
    omega

end Runs
