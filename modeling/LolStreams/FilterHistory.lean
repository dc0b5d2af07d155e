import LolStreams.FilterRuns

/-! What the filters have become after a run, from the history of the run alone. An option
comes up with a list that offers it, each click turns it over, and it goes with the first list
that does not carry it. -/
namespace LolStreams

/-! ### The history of an option -/

/-- The option as its automaton leaves it. -/
def optionAfter (first : StreamList) (es : List FilterEvent) (f : Facet) (k : String) :
    Option Bool :=
  es.foldl (optionStep f k) (optionLoaded first f k)

def clicksOn (f : Facet) (k : String) (es : List FilterEvent) : ℕ :=
  es.countP fun e => e.target = some (f, k)

/-- The option comes up with the first answer, or with the answer that the events end with. -/
def ComesUp (first : StreamList) (f : Facet) (k : String) (es : List FilterEvent) : Prop :=
  (es = [] ∧ optionLoaded first f k = some false) ∨
    ∃ earlier answer d, es = earlier ++ [.refresh answer] ∧ f.dimension = some d ∧
      optionAfter first earlier f k = none ∧ Carries d answer.streams k ∧
      Offers d answer.streams k ∧ k ∉ objectPrototype

/-- No answer drops the option. -/
def Keeps (f : Facet) (k : String) (es : List FilterEvent) : Prop :=
  ∀ answer, .refresh answer ∈ es → ∀ d, f.dimension = some d → Carries d answer.streams k

theorem refreshed_some_iff {f : Facet} {k : String} {streams : List Stream} {v : Option Bool}
    {b : Bool} : f.refreshed k streams v = some b ↔
      (v = some b ∧ ∀ d, f.dimension = some d → Carries d streams k) ∨
        ∃ d, f.dimension = some d ∧ v = none ∧ b = false ∧ Carries d streams k ∧
          Offers d streams k ∧ k ∉ objectPrototype := by
  cases hd : f.dimension with
  | none => simp [Facet.refreshed, hd]
  | some d =>
    simp only [Facet.refreshed, hd, Option.some.injEq, forall_eq', exists_eq_left']
    by_cases hc : Carries d streams k
    · by_cases ho : v = none ∧ Offers d streams k ∧ k ∉ objectPrototype
      · obtain ⟨rfl, ho⟩ := ho
        simp [hc, ho, eq_comm]
      · have hno : ¬ (v = none ∧ b = false ∧ Carries d streams k ∧ Offers d streams k ∧
            k ∉ objectPrototype) := fun h => ho ⟨h.1, h.2.2.2⟩
        rw [if_pos hc, if_neg ho]
        exact ⟨fun h => .inl ⟨h, hc⟩, fun h => h.elim And.left fun h => absurd h hno⟩
    · simp [hc]

theorem odd_succ_eq (n : ℕ) : decide (Odd (n + 1)) = !decide (Odd n) := by
  rw [← decide_not, decide_eq_decide, Nat.odd_add_one]

theorem clicksOn_append (f : Facet) (k : String) (es fs : List FilterEvent) :
    clicksOn f k (es ++ fs) = clicksOn f k es + clicksOn f k fs := List.countP_append

theorem clicksOn_singleton (f : Facet) (k : String) (e : FilterEvent) :
    clicksOn f k [e] = if e.target = some (f, k) then 1 else 0 := by
  rw [clicksOn, List.countP_singleton]
  simp only [decide_eq_true_eq]

/-- While no answer drops it, an option turns over with each click on it. -/
theorem optionStep_keeps {f : Facet} {k : String} {es : List FilterEvent} (h : Keeps f k es)
    (b : Bool) : es.foldl (optionStep f k) (some b) =
      some (b ^^ decide (Odd (clicksOn f k es))) := by
  induction es generalizing b with
  | nil => simp [clicksOn]
  | cons e es ih =>
    have hes : Keeps f k es := fun answer ha => h answer (List.mem_cons_of_mem _ ha)
    rw [List.foldl_cons]
    cases ht : e.target with
    | none =>
      obtain ⟨answer, rfl⟩ : ∃ answer, e = .refresh answer := by
        cases e with
        | refresh answer => exact ⟨answer, rfl⟩
        | _ => cases ht
      have hstep : optionStep f k (some b) (.refresh answer) = some b :=
        refreshed_some_iff.mpr (.inl ⟨rfl, h answer List.mem_cons_self⟩)
      have hcount : clicksOn f k ([.refresh answer] ++ es) = clicksOn f k es := by
        rw [clicksOn_append, clicksOn_singleton, ht, if_neg (by simp), Nat.zero_add]
      rw [hstep, ih hes, ← hcount, List.singleton_append]
    | some c =>
      rw [optionStep_of_target ht]
      by_cases hc : c = (f, k)
      · have hcount : clicksOn f k ([e] ++ es) = clicksOn f k es + 1 := by
          rw [clicksOn_append, clicksOn_singleton, ht, hc, if_pos rfl, Nat.add_comm]
        rw [List.singleton_append] at hcount
        rw [if_pos (by rw [hc]), Option.map_some, ih hes, hcount, odd_succ_eq]
        cases b <;> cases decide (Odd (clicksOn f k es)) <;> rfl
      · have hcount : clicksOn f k ([e] ++ es) = clicksOn f k es := by
          rw [clicksOn_append, clicksOn_singleton, ht, if_neg (by simpa using hc), Nat.zero_add]
        rw [List.singleton_append] at hcount
        rw [if_neg (by simpa using hc), ih hes, hcount]

theorem optionAfter_append (first : StreamList) (es fs : List FilterEvent) (f : Facet)
    (k : String) :
    optionAfter first (es ++ fs) f k = fs.foldl (optionStep f k) (optionAfter first es f k) :=
  List.foldl_append

theorem ComesUp.optionAfter {first : StreamList} {f : Facet} {k : String}
    {es : List FilterEvent} (h : ComesUp first f k es) :
    optionAfter first es f k = some false := by
  rcases h with ⟨rfl, h⟩ | ⟨earlier, answer, d, rfl, hd, hnone, hc, ho, hp⟩
  · exact h
  · rw [optionAfter_append, hnone]
    exact refreshed_some_iff.mpr (.inr ⟨d, hd, rfl, rfl, hc, ho, hp⟩)

/-- An option is there when some list has brought it up and none has dropped it since, and it
is selected when it has been clicked an odd number of times since then. -/
theorem optionAfter_iff (first : StreamList) (es : List FilterEvent) (f : Facet) (k : String)
    (b : Bool) : optionAfter first es f k = some b ↔
      ∃ before after, es = before ++ after ∧ ComesUp first f k before ∧ Keeps f k after ∧
        b = decide (Odd (clicksOn f k after)) := by
  constructor
  · intro h
    induction es using List.reverseRecOn generalizing b with
    | nil =>
      have hfalse : b = false := by
        have hload : optionLoaded first f k = some b := h
        unfold optionLoaded at hload
        split at hload <;> split_ifs at hload <;> simpa [eq_comm] using hload
      subst hfalse
      exact ⟨[], [], rfl, .inl ⟨rfl, h⟩, by simp [Keeps], by simp [clicksOn]⟩
    | append_singleton es e ih =>
      rw [optionAfter_append, List.foldl_cons, List.foldl_nil] at h
      cases ht : e.target with
      | none =>
        obtain ⟨answer, rfl⟩ : ∃ answer, e = .refresh answer := by
          cases e with
          | refresh answer => exact ⟨answer, rfl⟩
          | _ => cases ht
        rcases refreshed_some_iff.mp h with ⟨hv, hc⟩ | ⟨d, hd, hv, rfl, hc, ho, hp⟩
        · obtain ⟨before, after, rfl, hup, hkeep, hb⟩ := ih b hv
          refine ⟨before, after ++ [.refresh answer], by simp, hup, ?_, ?_⟩
          · intro a ha d hd
            rcases List.mem_append.mp ha with ha | ha
            · exact hkeep a ha d hd
            · obtain rfl : a = answer := by simpa using ha
              exact hc d hd
          · rw [clicksOn_append, clicksOn_singleton, ht, if_neg (by simp), Nat.add_zero, hb]
        · refine ⟨es ++ [.refresh answer], [], by simp, .inr ?_, by simp [Keeps], by simp [clicksOn]⟩
          exact ⟨es, answer, d, rfl, hd, hv, hc, ho, hp⟩
      | some c =>
        have hkeeps : ∀ after, Keeps f k after → Keeps f k (after ++ [e]) := by
          intro after hkeep a ha
          rcases List.mem_append.mp ha with ha | ha
          · exact hkeep a ha
          · obtain rfl : .refresh a = e := by simpa using ha
            cases ht
        rw [optionStep_of_target ht] at h
        by_cases hc : c = (f, k)
        · rw [if_pos (by rw [hc])] at h
          obtain ⟨v, hv, rfl⟩ := Option.map_eq_some_iff.mp h
          obtain ⟨before, after, rfl, hup, hkeep, rfl⟩ := ih v hv
          refine ⟨before, after ++ [e], by simp, hup, hkeeps after hkeep, ?_⟩
          have hcount : clicksOn f k (after ++ [e]) = clicksOn f k after + 1 := by
            rw [clicksOn_append, clicksOn_singleton, ht, hc, if_pos rfl]
          rw [hcount, odd_succ_eq]
        · rw [if_neg (by simpa using hc)] at h
          obtain ⟨before, after, rfl, hup, hkeep, rfl⟩ := ih b h
          refine ⟨before, after ++ [e], by simp, hup, hkeeps after hkeep, ?_⟩
          rw [clicksOn_append, clicksOn_singleton, ht, if_neg (by simpa using hc), Nat.add_zero]
  · rintro ⟨before, after, rfl, hup, hkeep, rfl⟩
    rw [optionAfter_append, hup.optionAfter, optionStep_keeps hkeep, Bool.false_xor]

/-! ### The page after a run -/

theorem optionsStep_eq_some {m m' : Options} {e : FilterEvent} (h : optionsStep m e = some m') :
    m' = fun f k => optionStep f k (m f k) e := by
  unfold optionsStep at h
  split at h
  · exact (Option.some.inj h).symm
  · exact (Option.some.inj (Option.ite_none_right_eq_some.mp h).2).symm

theorem options_of_run {m m' : Options} {es : List FilterEvent}
    (h : Runs.run optionsStep m es = some m') (f : Facet) (k : String) :
    m' f k = es.foldl (optionStep f k) (m f k) := by
  induction es generalizing m with
  | nil =>
    cases h
    rfl
  | cons e es ih =>
    obtain ⟨u, hu, hr⟩ := Runs.run_cons.mp h
    rw [ih hr, optionsStep_eq_some hu, List.foldl_cons]

variable {first : StreamList} {es : List FilterEvent} {s : Scope}

theorem holds_of_run (h : Runs.run filterStep (loaded first) es = some s) :
    s.Holds (optionAfter first es) := by
  have hrel := filters_run_like_options first es
  rw [h] at hrel
  generalize hm : Runs.run optionsStep (optionLoaded first) es = m at hrel
  cases hrel with
  | some hs =>
    intro f
    obtain ⟨o, ho, hv⟩ := hs f
    refine ⟨o, ho, ?_⟩
    intro k
    rw [hv, options_of_run hm, optionAfter]

/-- After any run, a filter has an option exactly when some list has brought it up and none
has dropped it since, with the value that the clicks since then give it. -/
theorem option_value_iff (h : Runs.run filterStep (loaded first) es = some s) {f : Facet}
    {o : JsObject} (ho : f.options s = some o) (k : String) (v : Value) :
    o.owned k = some v ↔ ∃ before after, es = before ++ after ∧ ComesUp first f k before ∧
      Keeps f k after ∧ v = .bool (decide (Odd (clicksOn f k after))) := by
  obtain ⟨o', ho', hv⟩ := holds_of_run h f
  obtain rfl : o = o' := Option.some.inj (ho.symm.trans ho')
  rw [hv, Option.map_eq_some_iff]
  constructor
  · rintro ⟨b, hb, rfl⟩
    obtain ⟨before, after, he, hup, hkeep, rfl⟩ := (optionAfter_iff first es f k b).mp hb
    exact ⟨before, after, he, hup, hkeep, rfl⟩
  · rintro ⟨before, after, he, hup, hkeep, rfl⟩
    exact ⟨_, (optionAfter_iff first es f k _).mpr ⟨before, after, he, hup, hkeep, rfl⟩, rfl⟩

theorem run_clickedAhri : Runs.run filterStep (loaded firstAnswer)
    [.refresh secondAnswer, .clickOption .champion "Ahri"] = some clickedAhri := rfl

/-- Ahri has been there from the first answer on, and is selected by the click. -/
theorem option_value_iff_ahri : ∃ o, clickedAhri.championFilter = some o ∧
    (o.owned "Ahri" = some (.bool true) ↔ ∃ before after,
      [FilterEvent.refresh secondAnswer, .clickOption .champion "Ahri"] = before ++ after ∧
        ComesUp firstAnswer .champion "Ahri" before ∧ Keeps .champion "Ahri" after ∧
        Value.bool true = .bool (decide (Odd (clicksOn .champion "Ahri" after)))) :=
  ⟨_, rfl, option_value_iff (f := .champion) run_clickedAhri rfl "Ahri" (.bool true)⟩

def FilterEvent.answer (last : StreamList) : FilterEvent → StreamList
  | refresh answer => answer
  | _ => last

def lastAnswer (first : StreamList) (es : List FilterEvent) : StreamList :=
  es.foldl FilterEvent.answer first

/-- What the page shows by the options alone: in each filter nothing is selected, or reading
the filter at the record's attribute finds a selected option or something inherited. -/
def Options.Passes (m : Options) (x : Stream) : Prop :=
  ∀ f : Facet, (∀ k, m f k ≠ some true) ∨
    ∃ a, f.attr x = .ok a ∧ (m f a.key).getD (decide (a.key ∈ objectPrototype)) = true

theorem Scope.Holds.anySelected {m : Options} (h : s.Holds m) {f : Facet} {o : JsObject}
    (ho : f.options s = some o) : o.anySelected = true ↔ ∃ k, m f k = some true := by
  obtain ⟨o', ho', hv⟩ := h f
  obtain rfl : o = o' := Option.some.inj (ho.symm.trans ho')
  rw [JsObject.anySelected_iff]
  refine exists_congr fun k => ?_
  rw [hv]
  cases hm : m f k with
  | none => simp
  | some b => simp [Value.truthy]

theorem Scope.Holds.truthy_get {m : Options} (h : s.Holds m) {f : Facet} {o : JsObject}
    (ho : f.options s = some o) (k : String) :
    truthy (o.get k) = (m f k).getD (decide (k ∈ objectPrototype)) := by
  obtain ⟨o', ho', hv⟩ := h f
  obtain rfl : o = o' := Option.some.inj (ho.symm.trans ho')
  unfold JsObject.get
  rw [hv]
  cases m f k with
  | none => by_cases hk : k ∈ objectPrototype <;> simp [hk]
  | some b => rfl

theorem Scope.Holds.accepts_iff {m : Options} (h : s.Holds m) (f : Facet) {x : Stream}
    (hx : x.Complete) : accepts (f.filterFn s x) = true ↔ (∀ k, m f k ≠ some true) ∨
      ∃ a, f.attr x = .ok a ∧ (m f a.key).getD (decide (a.key ∈ objectPrototype)) = true := by
  obtain ⟨a, ha⟩ := f.attr_ok hx
  obtain ⟨o, ho, _⟩ := h f
  have hsel := h.anySelected ho
  have hread := h.truthy_get ho a.key
  have hmap : (Except.ok a : Except JsError _).map JsField.key = .ok a.key := rfl
  rw [f.filterFn_eq, ha, ho, hmap, selectFrom_some, JsObject.select_eq]
  by_cases hany : o.anySelected = true
  · have hno : ¬ ∀ k, m f k ≠ some true := by simpa using hsel.mp hany
    simp only [hany, if_true, hno, false_or, Except.ok.injEq, exists_eq_left']
    rw [← hread]
    rfl
  · have hnone : ∀ k, m f k ≠ some true := fun k hk => hany (hsel.mpr ⟨k, hk⟩)
    simp [hany, hnone, accepts]

theorem streams_of_step {t u : Scope} {m : Options} {last : StreamList} {e : FilterEvent}
    (hm : t.Holds m) (hl : t.streams = some last.streams) (h : filterStep t e = some u) :
    u.streams = some (e.answer last).streams := by
  cases e with
  | refresh answer =>
    choose o ho _ using fun d => hm.filter d
    obtain ⟨v, hv, hs, _⟩ := refreshStreamsCallback_spec answer ho
    simp only [filterStep, hv, Outcome.scope, Option.some.injEq] at h
    exact h ▸ hs
  | clickOption d option =>
    obtain ⟨o, ho, _⟩ := hm.filter d
    simp only [filterStep, ho, Option.ite_none_right_eq_some, Option.some.injEq, clickOption,
      Outcome.scope] at h
    rw [← h.2, Scope.streams_setFilter, hl]
    rfl
  | _ =>
    simp only [filterStep, Option.ite_none_right_eq_some, Option.some.injEq] at h
    rw [← h.2]
    exact hl

theorem streams_of_run {t u : Scope} {m : Options} {last : StreamList} {es : List FilterEvent}
    (hm : t.Runs m) (hl : t.streams = some last.streams)
    (h : Runs.run filterStep t es = some u) : u.streams = some (lastAnswer last es).streams := by
  induction es generalizing t m last with
  | nil =>
    cases h
    exact hl
  | cons e es ih =>
    obtain ⟨v, hv, hr⟩ := Runs.run_cons.mp h
    have hrel := filterStep_rel t m e hm
    rw [hv] at hrel
    generalize optionsStep m e = m' at hrel
    cases hrel with
    | some hv' => exact ih hv' (streams_of_step hm.1 hl hv) hr

open scoped Classical in
/-- After any run the page shows the records of the last answer that the options let through,
in the order of the answer; so what it shows depends on nothing but that answer and what has
happened to each option. -/
theorem shown_after_run (h : Runs.run filterStep (loaded first) es = some s) :
    s.streams = some (lastAnswer first es).streams ∧
      shown s (lastAnswer first es).streams = (lastAnswer first es).streams.filter fun x =>
        decide (Options.Passes (optionAfter first es) x) := by
  have hload : (loaded first).streams = some first.streams := by
    obtain ⟨t, ht, hl, _⟩ := streamsCallback_spec first .start
    rw [loaded, ht]
    exact hl
  refine ⟨streams_of_run ⟨holds_loaded first, listed_loaded first⟩ hload h, ?_⟩
  rw [shown, foldl_filter_eq (fun (f : Facet) x => accepts (f.filterFn s x)),
    filter_eq_filter_iff]
  intro x hmem
  rw [Facet.all_iff, decide_eq_true_eq, Options.Passes]
  exact forall_congr' fun f =>
    (holds_of_run h).accepts_iff f ((lastAnswer first es).complete x hmem)

open scoped Classical in
theorem shown_after_run_ahri : shown clickedAhri secondAnswer.streams =
    secondAnswer.streams.filter fun x => decide (Options.Passes
      (optionAfter firstAnswer [.refresh secondAnswer, .clickOption .champion "Ahri"]) x) :=
  (shown_after_run run_clickedAhri).2

end LolStreams
