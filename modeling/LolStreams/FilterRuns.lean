import LolStreams.Runs
import LolStreams.ShownList

/-! The seven filters over whole runs, which are the runs of one small automaton for each
option: it is absent, or there and selected or not. -/
namespace LolStreams

/-- The dynamic filters take their options from the answers. -/
def Facet.dimension : Facet → Option Dimension
  | .team => some .team
  | .champion => some .champion
  | .lang => some .lang
  | _ => none

/-- The options of the static filters, in the order in which the template lists them. -/
def Facet.listed : Facet → List String
  | .rank => ["CHALLENGER", "MASTER", "DIAMOND", "PLATINUM", "GOLD", "SILVER", "BRONZE", "UNRANKED"]
  | .region => ["NA", "EUW", "EUNE", "BR", "TR", "RU", "LAN", "LAS", "OCE"]
  | .ingame => ["In game.", "Not in game.", "Champion select.", "Spectating."]
  | .gametype => ["1", "0", "3", "4"]
  | _ => []

inductive FilterEvent
  | refresh (answer : StreamList)
  | clickOption (d : Dimension) (option : String)
  | clickRank (rank : String)
  | clickRegion (region : String)
  | clickIngame (ingame : String)
  | clickGametype (gametype : ℤ)

/-- The page has links for the own keys of a dynamic filter, and one for each listed option of a
static filter. -/
def filterStep (s : Scope) : FilterEvent → Option Scope
  | .refresh answer => some (refreshStreamsCallback answer.streams s).scope
  | .clickOption d option =>
    match s.filter d with
    | some o => if option ∈ o.links then some (clickOption d option s).scope else none
    | none => none
  | .clickRank rank => if rank ∈ Facet.rank.listed then some (clickRank rank s) else none
  | .clickRegion region =>
    if region ∈ Facet.region.listed then some (clickRegion region s) else none
  | .clickIngame ingame =>
    if ingame ∈ Facet.ingame.listed then some (clickIngame ingame s) else none
  | .clickGametype gametype =>
    if toString gametype ∈ Facet.gametype.listed then some (clickGametype gametype s) else none

/-! ### One automaton for each option -/

/-- Whether an option is there and, if so, whether it is selected. -/
abbrev Options := Facet → String → Option Bool

def Dimension.facet : Dimension → Facet
  | .champion => .champion
  | .lang => .lang
  | .team => .team

@[simp] theorem Dimension.dimension_facet (d : Dimension) : d.facet.dimension = some d := by
  cases d <;> rfl

/-- The option that a click is on. -/
def FilterEvent.target : FilterEvent → Option (Facet × String)
  | refresh _ => none
  | clickOption d option => some (d.facet, option)
  | clickRank rank => some (.rank, rank)
  | clickRegion region => some (.region, region)
  | clickIngame ingame => some (.ingame, ingame)
  | clickGametype gametype => some (.gametype, toString gametype)

/-- An option under an answer: it stays as long as the list carries it, and comes up when the
list also offers it and no object inherits its name. -/
def Facet.refreshed (f : Facet) (k : String) (streams : List Stream) (v : Option Bool) :
    Option Bool :=
  match f.dimension with
  | none => v
  | some d =>
    if Carries d streams k then
      if v = none ∧ Offers d streams k ∧ k ∉ objectPrototype then some false else v
    else none

/-- What an event does to the option `k` of the filter `f`. -/
def optionStep (f : Facet) (k : String) (v : Option Bool) : FilterEvent → Option Bool
  | .refresh answer => f.refreshed k answer.streams v
  | e => if e.target = some (f, k) then v.map not else v

theorem optionStep_of_target {e : FilterEvent} {c : Facet × String} (he : e.target = some c)
    (f : Facet) (k : String) (v : Option Bool) :
    optionStep f k v e = if some c = some (f, k) then v.map not else v := by
  rw [← he]
  cases e with
  | refresh answer => cases he
  | _ => rfl

/-- The options after the first answer. -/
def optionLoaded (first : StreamList) (f : Facet) (k : String) : Option Bool :=
  match f.dimension with
  | none => if k ∈ f.listed then some false else none
  | some d => if Offers d first.streams k ∧ k ≠ "__proto__" then some false else none

/-- All options at once; a click needs its option to be there, with a link. -/
def optionsStep (m : Options) (e : FilterEvent) : Option Options :=
  match e.target with
  | none => some fun f k => optionStep f k (m f k) e
  | some (f, k) =>
    if (m f k).isSome ∧ linked k then some fun g j => optionStep g j (m g j) e else none

/-- The filters of the scope have exactly these options. -/
def Scope.Holds (s : Scope) (m : Options) : Prop :=
  ∀ f, ∃ o, f.options s = some o ∧ ∀ k, o.owned k = (m f k).map Value.bool

/-- The static filters have exactly the options that the template lists. -/
def Options.Listed (m : Options) : Prop :=
  ∀ f : Facet, f.dimension = none → ∀ k, (m f k).isSome ↔ k ∈ f.listed

def Scope.Runs (s : Scope) (m : Options) : Prop := s.Holds m ∧ m.Listed

/-! ### What a refresh leaves alone -/

/-- What every stage of a callback leaves alone, the callback does. -/
theorem Outcome.part_andThen {α : Type} {part : Scope → α} {s : Scope} {o : Outcome}
    {f : Scope → Outcome} (ho : part o.scope = part s) (hf : ∀ t, part (f t).scope = part t) :
    part (o.andThen f).scope = part s := by
  cases o with
  | done t => exact (hf t).trans ho
  | threw t => exact ho

/-- A part of the scope that neither the list nor the dynamic filters are in. -/
structure Apart {α : Type} (part : Scope → α) : Prop where
  setFilter : ∀ s d o, part (s.setFilter d o) = part s
  streams : ∀ s l, part { s with streams := l } = part s

namespace Apart

variable {α : Type} {part : Scope → α} (h : Apart part)
include h

theorem offerOption (write : JsObject → String → JsObject) (d : Dimension) (s : Scope)
    (x : Stream) : part (offerOption write d s x).scope = part s := by
  unfold LolStreams.offerOption
  split
  · rfl
  · rfl
  · split
    · exact h.setFilter s d _
    · rfl

theorem forEachStream (write : JsObject → String → JsObject) (s : Scope) (xs : List Stream) :
    part (forEachStream (offerOptions write) s xs).scope = part s := by
  induction xs generalizing s with
  | nil => rfl
  | cons x xs ih =>
    refine Outcome.part_andThen ?_ ih
    refine Outcome.part_andThen (Outcome.part_andThen ?_ ?_) ?_
    · exact h.offerOption write .champion s x
    · exact fun t => h.offerOption write .lang t x
    · exact fun t => h.offerOption write .team t x

theorem pruneKeys (d : Dimension) (xs : List Stream) (ks : List String) (s : Scope) :
    part (pruneKeys d xs ks s).scope = part s := by
  induction ks generalizing s with
  | nil => rfl
  | cons k ks ih =>
    unfold LolStreams.pruneKeys
    split
    · exact ih s
    · exact (ih _).trans (h.setFilter s d _)
    · rfl

theorem prune (d : Dimension) (xs : List Stream) (s : Scope) :
    part (prune d xs s).scope = part s := by
  unfold LolStreams.prune
  split
  · rfl
  · exact h.pruneKeys d xs _ s

theorem refreshStreamsCallback (xs : List Stream) (s : Scope) :
    part (refreshStreamsCallback xs s).scope = part s := by
  have hloop := (h.forEachStream assignIfUndefined { s with streams := some xs } xs).trans
    (h.streams s (some xs))
  exact Outcome.part_andThen (Outcome.part_andThen (Outcome.part_andThen hloop (h.prune .champion xs)) (h.prune .lang xs))
    (h.prune .team xs)

theorem streamsCallback (hnew : ∀ s c l t, part { s with
      championFilter := c, langFilter := l, teamFilter := t } = part s) (xs : List Stream)
    (s : Scope) : part (streamsCallback xs s).scope = part s := by
  refine (h.forEachStream assignFalse _ xs).trans ?_
  exact (hnew { s with streams := some xs } _ _ _).trans (h.streams s (some xs))

end Apart

/-- The static filters. -/
def Scope.statics (s : Scope) : JsObject × JsObject × JsObject × JsObject :=
  (s.rankFilter, s.regionFilter, s.ingameFilter, s.gametypeFilter)

theorem apart_statics : Apart Scope.statics := by
  refine ⟨?_, fun _ _ => rfl⟩
  intro s d o
  cases d <;> rfl

theorem options_of_statics {s t : Scope} (h : t.statics = s.statics) {f : Facet}
    (hf : f.dimension = none) : f.options t = f.options s := by
  simp only [Scope.statics, Prod.mk.injEq] at h
  obtain ⟨hrank, hregion, hingame, hgametype⟩ := h
  cases f with
  | rank => exact congrArg some hrank
  | region => exact congrArg some hregion
  | ingame => exact congrArg some hingame
  | gametype => exact congrArg some hgametype
  | _ => cases hf

theorem options_of_dimension {f : Facet} {d : Dimension} (h : f.dimension = some d)
    (s : Scope) : f.options s = s.filter d := by
  cases f <;> cases h <;> rfl

/-! ### The filters run like their options -/

namespace Scope.Holds

variable {s : Scope} {m : Options}

theorem filter (h : s.Holds m) (d : Dimension) :
    ∃ o, s.filter d = some o ∧ ∀ k, o.owned k = (m d.facet k).map Value.bool := by
  obtain ⟨o, ho, hk⟩ := h d.facet
  refine ⟨o, ?_, hk⟩
  rw [← ho, options_of_dimension d.dimension_facet]

/-- A refresh does to each option what it says. -/
theorem refresh (h : s.Holds m) (answer : StreamList) :
    (refreshStreamsCallback answer.streams s).scope.Holds fun f k =>
      f.refreshed k answer.streams (m f k) := by
  choose o ho hk using fun d => h.filter d
  obtain ⟨t, ht, _, hf⟩ := refreshStreamsCallback_spec answer ho
  intro f
  cases hd : f.dimension with
  | none =>
    obtain ⟨o, ho, hk⟩ := h f
    refine ⟨o, ?_, ?_⟩
    · rw [options_of_statics (apart_statics.refreshStreamsCallback answer.streams s) hd, ho]
    · intro k
      simp only [Facet.refreshed, hd, hk]
  | some d =>
    have hfacet : d.facet = f := by cases f <;> cases hd <;> rfl
    obtain ⟨p, hp, hv⟩ := hf d
    rw [ht]
    refine ⟨p, ?_, ?_⟩
    · rw [options_of_dimension hd]
      exact hp
    · intro k
      rw [hv, hk, refreshedValue, hfacet]
      simp only [Facet.refreshed, hd, Option.map_eq_none_iff]
      by_cases hc : Carries d answer.streams k
      · by_cases ho : m f k = none ∧ Offers d answer.streams k ∧ k ∉ objectPrototype
        · simp [hc, ho]
        · simp [hc, ho]
      · simp [hc]

/-- A click on an option that is there turns it over and touches nothing else. -/
theorem toggle (h : s.Holds m) {t : Scope} {f : Facet} {o : JsObject} {k : String}
    (ho : f.options s = some o) (hk : (m f k).isSome) (ht : f.options t = some (o.toggle k))
    (hothers : ∀ g, g ≠ f → g.options t = g.options s) :
    t.Holds fun g j => if some (f, k) = some (g, j) then (m g j).map not else m g j := by
  intro g
  by_cases hg : g = f
  · subst hg
    obtain ⟨o', ho', hv⟩ := h g
    obtain rfl : o = o' := Option.some.inj (ho.symm.trans ho')
    obtain ⟨b, hb⟩ := Option.isSome_iff_exists.mp hk
    have hown : o.owned k = some (.bool b) := by rw [hv, hb]; rfl
    have hproto : k ≠ "__proto__" := by
      rintro rfl
      simp at hown
    refine ⟨_, ht, ?_⟩
    intro j
    rw [JsObject.toggle, JsObject.get_of_owned hown, truthy_bool, JsObject.owned_put]
    by_cases hj : j = k
    · simp [hj, hproto, hb]
    · simp [hj, Ne.symm hj, hv]
  · obtain ⟨o', ho', hv⟩ := h g
    refine ⟨o', (hothers g hg).trans ho', ?_⟩
    intro j
    simp [Ne.symm hg, hv]

end Scope.Holds

theorem owned_foldl_flags {names : List String} (hp : "__proto__" ∉ names) (o : JsObject)
    (k : String) : (names.foldl (fun o k => o.put k (.bool false)) o).owned k =
      if k ∈ names then some (.bool false) else o.owned k := by
  induction names generalizing o with
  | nil => simp
  | cons n names ih =>
    rw [List.mem_cons, not_or] at hp
    rw [List.foldl_cons, ih hp.2, JsObject.owned_put]
    by_cases hk : k ∈ names
    · simp [hk]
    · simp [hk, Ne.symm hp.1]

/-- The static filters begin with the options that the template lists. -/
theorem options_start {f : Facet} (hf : f.dimension = none) :
    ∃ o, f.options .start = some o ∧
      ∀ k, o.owned k = if k ∈ f.listed then some (.bool false) else none := by
  have hflags : ∀ names : List String, "__proto__" ∉ names → (∀ k, k ∈ names ↔ k ∈ f.listed) →
      ∀ k, (flags names).owned k = if k ∈ f.listed then some (.bool false) else none := by
    intro names hp hn k
    rw [flags, owned_foldl_flags hp, JsObject.owned_empty]
    simp only [hn]
  cases f with
  | rank => exact ⟨_, rfl, hflags _ (by decide) fun _ => Iff.rfl⟩
  | region => exact ⟨_, rfl, hflags _ (by decide) fun _ => Iff.rfl⟩
  | ingame =>
    refine ⟨_, rfl, hflags _ (by decide) ?_⟩
    intro k
    simp only [Facet.listed, List.mem_cons, List.not_mem_nil, or_false]
    tauto
  | gametype =>
    refine ⟨_, rfl, hflags _ (by decide) ?_⟩
    intro k
    simp only [Facet.listed, List.mem_cons, List.not_mem_nil, or_false]
    tauto
  | _ => cases hf

theorem holds_loaded (first : StreamList) : (loaded first).Holds (optionLoaded first) := by
  obtain ⟨t, ht, _, hf⟩ := streamsCallback_spec first .start
  have hstatics : (loaded first).statics = Scope.start.statics :=
    apart_statics.streamsCallback (fun _ _ _ _ => rfl) first.streams .start
  intro f
  cases hd : f.dimension with
  | none =>
    have ho := options_of_statics hstatics hd
    obtain ⟨o, hso, hv⟩ := options_start hd
    refine ⟨o, ho.trans hso, ?_⟩
    intro k
    rw [hv]
    simp only [optionLoaded, hd]
    split_ifs <;> rfl
  | some d =>
    obtain ⟨o, ho, hv⟩ := hf d
    refine ⟨o, ?_, ?_⟩
    · rw [options_of_dimension hd, loaded, ht]
      exact ho
    · intro k
      rw [hv]
      simp only [optionLoaded, hd]
      split_ifs <;> rfl

theorem listed_loaded (first : StreamList) : Options.Listed (optionLoaded first) := by
  intro f hf k
  simp only [optionLoaded, hf]
  split_ifs with hk <;> simp [hk]

theorem listed_click {m : Options} (h : m.Listed) (c : Facet × String) :
    Options.Listed fun g j => if some c = some (g, j) then (m g j).map not else m g j := by
  intro f hf k
  rw [← h f hf k]
  by_cases hc : c = (f, k) <;> simp [hc]

theorem listed_refresh {m : Options} (h : m.Listed) (streams : List Stream) :
    Options.Listed fun f k => f.refreshed k streams (m f k) := by
  intro f hf k
  rw [← h f hf k]
  simp only [Facet.refreshed, hf]

/-- A click in both systems. -/
theorem rel_click {s t : Scope} {m : Options} (h : s.Runs m) {e : FilterEvent} {f : Facet}
    {k : String} (he : e.target = some (f, k)) {ok : Prop} [Decidable ok]
    (hok : ok ↔ (m f k).isSome ∧ linked k) {o : JsObject} (ho : f.options s = some o)
    (ht : f.options t = some (o.toggle k)) (hothers : ∀ g, g ≠ f → g.options t = g.options s) :
    Option.Rel Scope.Runs (if ok then some t else none) (optionsStep m e) := by
  have hstep : optionsStep m e = if (m f k).isSome ∧ linked k then
      some fun g j => if some (f, k) = some (g, j) then (m g j).map not else m g j else none := by
    simp only [optionsStep, he, optionStep_of_target he]
  rw [hstep]
  by_cases hk : (m f k).isSome ∧ linked k
  · rw [if_pos (hok.mpr hk), if_pos hk]
    exact .some ⟨h.1.toggle ho hk.1 ht hothers, listed_click h.2 (f, k)⟩
  · rw [if_neg (fun h => hk (hok.mp h)), if_neg hk]
    exact .none

theorem linked_listed (f : Facet) : ∀ k ∈ f.listed, linked k = true := by
  cases f <;> decide

theorem filterStep_rel (s : Scope) (m : Options) (e : FilterEvent) (h : s.Runs m) :
    Option.Rel Scope.Runs (filterStep s e) (optionsStep m e) := by
  have hlisted : ∀ f : Facet, f.dimension = none →
      ∀ k, k ∈ f.listed ↔ (m f k).isSome ∧ linked k := by
    intro f hf k
    rw [h.2 f hf k]
    exact ⟨fun hk => ⟨hk, linked_listed f k hk⟩, And.left⟩
  cases e with
  | refresh answer =>
    exact .some ⟨h.1.refresh answer, listed_refresh h.2 answer.streams⟩
  | clickOption d option =>
    obtain ⟨o, ho, hv⟩ := h.1.filter d
    have hkeys : option ∈ o.links ↔ (m d.facet option).isSome ∧ linked option := by
      rw [JsObject.mem_links, JsObject.mem_keys, hv, Option.isSome_map]
    have hclick : (clickOption d option s).scope = s.setFilter d (o.toggle option) := by
      simp only [clickOption, ho, Outcome.scope]
    have hfilter : ∀ t : Scope, d.facet.options t = t.filter d :=
      options_of_dimension d.dimension_facet
    simp only [filterStep, ho]
    refine rel_click h rfl hkeys ((hfilter s).trans ho) ?_ ?_
    · rw [hfilter, hclick, Scope.filter_setFilter, if_pos rfl]
    · intro g hg
      rw [hclick]
      cases hd : g.dimension with
      | none => exact options_of_statics (apart_statics.setFilter s d _) hd
      | some e =>
        have hne : e ≠ d := by
          rintro rfl
          cases g <;> cases hd <;> exact hg rfl
        rw [options_of_dimension hd, options_of_dimension hd, Scope.filter_setFilter, if_neg hne]
  | clickRank rank =>
    refine rel_click h rfl (hlisted .rank rfl rank) rfl rfl ?_
    intro g hg
    cases g <;> first | rfl | exact absurd rfl hg
  | clickRegion region =>
    refine rel_click h rfl (hlisted .region rfl region) rfl rfl ?_
    intro g hg
    cases g <;> first | rfl | exact absurd rfl hg
  | clickIngame ingame =>
    refine rel_click h rfl (hlisted .ingame rfl ingame) rfl rfl ?_
    intro g hg
    cases g <;> first | rfl | exact absurd rfl hg
  | clickGametype gametype =>
    refine rel_click h rfl (hlisted .gametype rfl (toString gametype)) rfl rfl ?_
    intro g hg
    cases g <;> first | rfl | exact absurd rfl hg

/-- The page and the automata of the options run together: the same events are possible after
the same histories, and after each of them the filters have exactly the options whose automata
say so. -/
theorem filters_run_like_options (first : StreamList) (es : List FilterEvent) :
    Option.Rel Scope.Holds (Runs.run filterStep (loaded first) es)
      (Runs.run optionsStep (optionLoaded first) es) := by
  have hstart : (loaded first).Runs (optionLoaded first) :=
    ⟨holds_loaded first, listed_loaded first⟩
  have hrun := Runs.run_rel filterStep_rel hstart es
  generalize Runs.run filterStep (loaded first) es = s at hrun ⊢
  generalize Runs.run optionsStep (optionLoaded first) es = m at hrun ⊢
  cases hrun with
  | none => exact .none
  | some h => exact .some h.1

end LolStreams
