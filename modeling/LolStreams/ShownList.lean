import LolStreams.FilterOptions

/-! The list that the page repeats: the streams that pass the filters one after the other,
against the streams whose attribute is selected wherever something is. -/
namespace LolStreams

/-- The filters that go by an attribute of the record. -/
inductive Facet
  | team
  | rank
  | region
  | ingame
  | gametype
  | champion
  | lang
  deriving DecidableEq, Repr

/-- A number as the name of an option. -/
def JsField.text {α : Type} [ToString α] : JsField α → JsField String
  | .undefined => .undefined
  | .null => .null
  | .val a => .val (toString a)

namespace Facet

/-- In the order of the template. -/
def all : List Facet := [team, rank, region, ingame, gametype, champion, lang]

def filterFn : Facet → Scope → Stream → Except JsError (Option Value)
  | team => filterteams
  | rank => filterrank
  | region => filterregion
  | ingame => filteringame
  | gametype => filtergametype
  | champion => filterchampion
  | lang => filterlang

def options : Facet → Scope → Option JsObject
  | team, s => s.teamFilter
  | rank, s => some s.rankFilter
  | region, s => some s.regionFilter
  | ingame, s => some s.ingameFilter
  | gametype, s => some s.gametypeFilter
  | champion, s => s.championFilter
  | lang, s => s.langFilter

def attr : Facet → Stream → Except JsError (JsField String)
  | team, x => Dimension.team.attr x
  | rank, x => .ok x.rank
  | region, x => .ok x.region
  | ingame, x => .ok x.status
  | gametype, x => x.streamer.deref.map fun streamer => streamer.gender.text
  | champion, x => Dimension.champion.attr x
  | lang, x => Dimension.lang.attr x

end Facet

/-- `stream in streams | filter: filterteams | filter: filterrank | ...` -/
def shown (s : Scope) (streams : List Stream) : List Stream :=
  Facet.all.foldl (fun l f => l.filter fun x => accepts (f.filterFn s x)) streams

/-! ### What should be shown -/

/-- No option is selected. -/
def Facet.unfiltered (f : Facet) (s : Scope) : Bool :=
  match f.options s with
  | none => true
  | some o => !o.anySelected

/-- The option equal to the attribute is there and selected. -/
def Facet.chosen (f : Facet) (s : Scope) (x : Stream) : Bool :=
  match f.options s, f.attr x with
  | some o, .ok (.val a) => truthy (o.owned a)
  | _, _ => false

def Facet.wants (f : Facet) (s : Scope) (x : Stream) : Bool := f.unfiltered s || f.chosen s x

def expected (s : Scope) (streams : List Stream) : List Stream :=
  streams.filter fun x => Facet.all.all fun f => f.wants s x

/-- Something is selected, and reading the filter at the attribute finds what is not the option
of that name: an inherited property, or the option whose name is the text of an absent
attribute. -/
def Facet.Spurious (f : Facet) (s : Scope) (x : Stream) : Prop :=
  f.unfiltered s = false ∧ ∃ o a, f.options s = some o ∧ f.attr x = .ok a ∧
    match a with
    | .val k => o.owned k = none ∧ k ∈ objectPrototype
    | a => truthy (o.owned a.key)

/-- Every stream with a spurious match in some filter is turned down by another one. -/
def NoSpuriousMatch (s : Scope) (streams : List Stream) : Prop :=
  ∀ x ∈ streams, (∃ f : Facet, f.Spurious s x) →
    ∃ f : Facet, f.wants s x = false ∧ ¬ f.Spurious s x

theorem Facet.mem_all (f : Facet) : f ∈ Facet.all := by
  cases f <;> simp [Facet.all]

theorem Facet.all_iff {p : Facet → Bool} : Facet.all.all p = true ↔ ∀ f, p f = true := by
  rw [List.all_eq_true]
  exact ⟨fun h f => h f f.mem_all, fun h f _ => h f⟩

/-! ### One filter -/

theorem JsField.key_text {α : Type} [ToString α] (x : JsField α) : x.text.key = x.key := by
  cases x <;> rfl

/-- Every filter function reads its filter at its attribute. -/
theorem Facet.filterFn_eq (f : Facet) (s : Scope) (x : Stream) :
    f.filterFn s x = selectFrom (f.options s) ((f.attr x).map JsField.key) := by
  cases f with
  | gametype =>
    cases h : x.streamer <;>
      simp [Facet.filterFn, filtergametype, Facet.options, Facet.attr, h, JsField.deref,
        Except.map, JsField.key_text]
  | _ => rfl

theorem Facet.attr_ok {x : Stream} (hx : x.Complete) (f : Facet) : ∃ a, f.attr x = .ok a := by
  cases f with
  | team => exact hx.attr .team
  | champion => exact hx.attr .champion
  | lang => exact hx.attr .lang
  | gametype =>
    obtain ⟨_, t, ht⟩ := hx
    exact ⟨t.gender.text, by simp [Facet.attr, ht, Except.map]⟩
  | _ => exact ⟨_, rfl⟩

/-- A truthy read finds an own property, or an inherited one. -/
theorem truthy_get_iff (o : JsObject) (k : String) :
    truthy (o.get k) = true ↔
      truthy (o.owned k) = true ∨ o.owned k = none ∧ k ∈ objectPrototype := by
  unfold JsObject.get
  cases o.owned k with
  | some v => simp
  | none => by_cases hk : k ∈ objectPrototype <;> simp [hk]

theorem truthy_get_absent {k : String} (hk : k ∉ objectPrototype) (o : JsObject) :
    truthy (o.get k) = truthy (o.owned k) := by
  rw [JsObject.get_eq_owned hk]

/-- A complete record passes a filter that wants it or that it matches spuriously. -/
theorem accepts_filterFn_iff {x : Stream} (hx : x.Complete) (f : Facet) (s : Scope) :
    accepts (f.filterFn s x) = true ↔ f.wants s x = true ∨ f.Spurious s x := by
  obtain ⟨a, ha⟩ := f.attr_ok hx
  rw [f.filterFn_eq, ha]
  cases ho : f.options s with
  | none => simp [Facet.wants, Facet.unfiltered, ho, accepts]
  | some o =>
    cases hsel : o.anySelected with
    | false => simp [Facet.wants, Facet.unfiltered, ho, JsObject.select_eq, hsel, accepts]
    | true =>
      have hread : accepts (o.select (.ok a.key)) = truthy (o.get a.key) := by
        rw [JsObject.select_eq, if_pos hsel]
        rfl
      have hmap : (Except.ok a : Except JsError _).map JsField.key = .ok a.key := rfl
      rw [hmap, selectFrom_some, hread]
      simp only [Facet.wants, Facet.unfiltered, Facet.chosen, Facet.Spurious, ho, ha, hsel]
      cases a with
      | val k =>
        have hk : (JsField.val k).key = k := rfl
        simpa [hk] using truthy_get_iff o k
      | undefined =>
        have hk : "undefined" ∉ objectPrototype := by decide
        simp [JsField.key, truthy_get_absent hk]
      | null =>
        have hk : "null" ∉ objectPrototype := by decide
        simp [JsField.key, truthy_get_absent hk]

theorem Facet.Spurious.wants_eq_false {f : Facet} {s : Scope} {x : Stream}
    (h : f.Spurious s x) : f.wants s x = false := by
  obtain ⟨hsel, o, a, ho, ha, h⟩ := h
  cases a with
  | val k => simp [Facet.wants, Facet.chosen, hsel, ho, ha, h.1]
  | _ => simp [Facet.wants, Facet.chosen, hsel, ho, ha]

/-! ### All of them -/

theorem foldl_filter_eq {α β : Type} (p : β → α → Bool) (bs : List β) (l : List α) :
    bs.foldl (fun l b => l.filter (p b)) l = l.filter fun x => bs.all fun b => p b x := by
  induction bs generalizing l with
  | nil => simp
  | cons b bs ih =>
    rw [List.foldl_cons, ih, List.filter_filter]
    refine List.filter_congr ?_
    intro x _
    rw [List.all_cons, Bool.and_comm]

theorem filter_eq_filter_iff {α : Type} {p q : α → Bool} {l : List α} :
    l.filter p = l.filter q ↔ ∀ x ∈ l, (p x = true ↔ q x = true) := by
  constructor
  · intro h x hx
    have hp : x ∈ l.filter p ↔ p x = true := by simp [hx]
    have hq : x ∈ l.filter q ↔ q x = true := by simp [hx]
    rw [← hp, ← hq, h]
  · intro h
    exact List.filter_congr fun x hx => Bool.eq_iff_iff.mpr (h x hx)

/-- The shown list is the expected one exactly when no spurious match tips the scales, for
every list and every state of the filters. -/
theorem shown_eq_expected_iff (s : Scope) (S : StreamList) :
    shown s S.streams = expected s S.streams ↔ NoSpuriousMatch s S.streams := by
  rw [shown, foldl_filter_eq (fun (f : Facet) x => accepts (f.filterFn s x)), expected,
    filter_eq_filter_iff]
  refine forall₂_congr fun x hx => ?_
  rw [Facet.all_iff, Facet.all_iff]
  simp only [accepts_filterFn_iff (S.complete x hx)]
  constructor
  · rintro h ⟨f, hf⟩
    by_contra hnone
    push Not at hnone
    have hall : ∀ f : Facet, f.wants s x = true := by
      refine h.mp fun g => ?_
      cases hg : g.wants s x with
      | true => exact .inl rfl
      | false => exact .inr (hnone g hg)
    exact absurd (hall f) (by simp [hf.wants_eq_false])
  · intro h
    constructor
    · intro hall f
      rcases hall f with hf | hf
      · exact hf
      · obtain ⟨g, hg, hgs⟩ := h ⟨f, hf⟩
        rcases hall g with hw | hw
        · simp [hg] at hw
        · exact absurd hw hgs
    · intro hall f
      exact .inl (hall f)

/-! ### A team named like an inherited property -/

/-- Two records, of which one has a team that every object inherits. -/
def teamList : StreamList where
  streams := [sampleStream "dyrus" "Ahri" "Ahri",
    { sampleStream "imaqtpie" "Draven" "Draven" with
      streamer := .val ⟨.val "constructor", .val 1⟩ }]
  complete := by
    intro x hx
    simp only [List.mem_cons, List.not_mem_nil, or_false] at hx
    rcases hx with rfl | rfl
    · exact ⟨⟨_, rfl⟩, _, rfl⟩
    · exact ⟨⟨_, rfl⟩, _, rfl⟩

/-- One team is selected, and then a refresh brings the other record. -/
def refreshedTeams : Scope :=
  (refreshStreamsCallback teamList.streams
    (clickTeam "tsm" (loaded (sampleList "dyrus" "Ahri" "Ahri"))).scope).scope

/-- The refresh makes no option of the inherited name, and the other record is shown as well. -/
theorem inherited_team_shown :
    ¬ ∀ (S : StreamList) (s : Scope), ListReached s → s.streams = some S.streams →
      shown s S.streams = expected s S.streams := by
  intro h
  have hclick : Runs.Reaches listStep (loaded (sampleList "dyrus" "Ahri" "Ahri"))
      (clickTeam "tsm" (loaded (sampleList "dyrus" "Ahri" "Ahri"))).scope :=
    .tail (e := .click .team "tsm") .refl trivial rfl
  have hs : ListReached refreshedTeams :=
    ⟨_, .tail (e := .refresh teamList) hclick trivial rfl⟩
  exact absurd (h teamList refreshedTeams hs rfl) (by decide)

end LolStreams
