import LolStreams.Runs
import LolStreams.StreamList

/-! Options of the dynamic filters over whole runs: after the first answer come refresh
answers and clicks on options the page shows, in any order. -/
namespace LolStreams

inductive ListEvent
  | refresh (answer : StreamList)
  | click (d : Dimension) (option : String)

/-- `ng-repeat` passes over the keys with a leading dollar sign. -/
def linked (key : String) : Bool := key.toList.head? ≠ some '$'

/-- The own keys for which the page has a link. -/
def JsObject.links (o : JsObject) : List String := o.keys.filter linked

theorem JsObject.mem_links {o : JsObject} {k : String} :
    k ∈ o.links ↔ k ∈ o.keys ∧ linked k = true := List.mem_filter

def listStep (s : Scope) : ListEvent → Option Scope
  | .refresh answer => some (refreshStreamsCallback answer.streams s).scope
  | .click d option =>
    match s.filter d with
    | some o => if option ∈ o.links then some (clickOption d option s).scope else none
    | none => none

/-- The scope right after the first answer. -/
def loaded (first : StreamList) : Scope := (streamsCallback first.streams .start).scope

def ListReached (s : Scope) : Prop := ∃ first, Runs.Reaches listStep (loaded first) s

/-- Every option is the attribute of a record of the current list. -/
def OptionsBacked (s : Scope) : Prop :=
  ∃ l, s.streams = some l ∧ ∀ d, ∃ o, s.filter d = some o ∧
    ∀ k ∈ o.keys, ∃ x ∈ l, (d.attr x).map JsField.key = .ok k

theorem attr_key_of_offers {d : Dimension} {l : List Stream} {k : String} (h : Offers d l k) :
    ∃ x ∈ l, (d.attr x).map JsField.key = .ok k := by
  obtain ⟨x, hx, hk⟩ := h
  unfold Dimension.offersKey at hk
  split at hk
  · rename_i a _ ha
    refine ⟨x, hx, ?_⟩
    rw [ha, ← of_decide_eq_true hk]
    rfl
  · simp at hk

theorem attr_key_of_carries {d : Dimension} {l : List Stream} {k : String}
    (h : Carries d l k) : ∃ x ∈ l, (d.attr x).map JsField.key = .ok k := by
  obtain ⟨x, hx, hk⟩ := h
  unfold Dimension.carriesKey at hk
  split at hk
  · rename_i a ha
    refine ⟨x, hx, ?_⟩
    rw [ha, ← JsField.key_of_eqString hk]
    rfl
  · simp at hk

theorem optionsBacked_loaded (first : StreamList) : OptionsBacked (loaded first) := by
  obtain ⟨t, ht, hl, hf⟩ := streamsCallback_spec first .start
  rw [loaded, ht]
  refine ⟨first.streams, hl, ?_⟩
  intro d
  obtain ⟨o, ho, hv⟩ := hf d
  refine ⟨o, ho, ?_⟩
  intro k hk
  rw [JsObject.mem_keys, hv] at hk
  split_ifs at hk with h
  · exact attr_key_of_offers h.1
  · simp at hk

theorem optionsBacked_refresh {s : Scope} (answer : StreamList) (hs : OptionsBacked s) :
    OptionsBacked (refreshStreamsCallback answer.streams s).scope := by
  obtain ⟨_, _, hd⟩ := hs
  choose f hf _ using hd
  obtain ⟨t, ht, hl, hv⟩ := refreshStreamsCallback_spec answer hf
  rw [ht]
  refine ⟨answer.streams, hl, ?_⟩
  intro d
  obtain ⟨o, ho, hk⟩ := hv d
  refine ⟨o, ho, ?_⟩
  intro k hm
  rw [JsObject.mem_keys, hk, refreshedValue] at hm
  split_ifs at hm with hc
  · exact attr_key_of_carries hc
  · exact attr_key_of_carries hc
  · simp at hm

theorem JsObject.mem_keys_toggle {o : JsObject} {j k : String} (hj : j ∈ o.keys) :
    k ∈ (o.toggle j).keys ↔ k ∈ o.keys := by
  have hp : j ≠ "__proto__" := fun h => o.proto_not_own (h ▸ hj)
  rw [JsObject.mem_keys, JsObject.mem_keys, toggle, owned_put]
  split_ifs with h
  · rw [JsObject.mem_keys] at hj
    rw [h.1]
    simp [hj]
  · rfl

theorem optionsBacked_click {s : Scope} {d : Dimension} {o : JsObject} {option : String}
    (ho : s.filter d = some o) (hk : option ∈ o.keys) (hs : OptionsBacked s) :
    OptionsBacked (clickOption d option s).scope := by
  obtain ⟨l, hl, hd⟩ := hs
  simp only [clickOption, ho, Outcome.scope]
  refine ⟨l, by simpa using hl, ?_⟩
  intro e
  rw [Scope.filter_setFilter]
  split_ifs with he
  · subst he
    obtain ⟨o', ho', hb⟩ := hd e
    obtain rfl : o = o' := Option.some.inj (ho.symm.trans ho')
    exact ⟨_, rfl, fun k hm => hb k ((JsObject.mem_keys_toggle hk).mp hm)⟩
  · exact hd e

theorem optionsBacked_step {s t : Scope} {e : ListEvent} (hs : OptionsBacked s)
    (he : listStep s e = some t) : OptionsBacked t := by
  cases e with
  | refresh answer =>
    cases he
    exact optionsBacked_refresh answer hs
  | click d option =>
    cases ho : s.filter d with
    | none => simp [listStep, ho] at he
    | some o =>
      simp only [listStep, ho] at he
      split_ifs at he with hk
      cases he
      exact optionsBacked_click ho (JsObject.mem_links.mp hk).1 hs

theorem ListReached.optionsBacked {s : Scope} (h : ListReached s) : OptionsBacked s := by
  obtain ⟨first, hr⟩ := h
  exact hr.invariant (optionsBacked_loaded first) fun _ _ _ hi he => optionsBacked_step hi he

/-- A selected option lets through the record that carries it. -/
theorem accepts_filterBy {s : Scope} {d : Dimension} {o : JsObject} {k : String} {x : Stream}
    (ho : s.filter d = some o) (hk : k ∈ o.keys) (ht : truthy (o.get k) = true)
    (hx : (d.attr x).map JsField.key = .ok k) : accepts (filterBy d s x) = true := by
  have ha : o.anySelected = true := List.any_eq_true.mpr ⟨k, hk, ht⟩
  rw [filterBy, ho, hx, selectFrom_some, JsObject.select_eq, if_pos ha]
  exact ht

/-- No selected option is dead: in every reachable state each selected option of each
dynamic filter accepts a record of the current list, one whose attribute it is. -/
theorem selected_option_accepts {s : Scope} (h : ListReached s) {d : Dimension} {o : JsObject}
    {k : String} (ho : s.filter d = some o) (hk : k ∈ o.keys) (ht : truthy (o.get k) = true) :
    ∃ l, s.streams = some l ∧
      ∃ x ∈ l, (d.attr x).map JsField.key = .ok k ∧ accepts (filterBy d s x) = true := by
  obtain ⟨l, hl, hd⟩ := h.optionsBacked
  obtain ⟨o', ho', hb⟩ := hd d
  obtain rfl : o = o' := Option.some.inj (ho.symm.trans ho')
  obtain ⟨x, hx, hxk⟩ := hb k hk
  exact ⟨l, hl, x, hx, hxk, accepts_filterBy ho hk ht hxk⟩

theorem selected_option_accepts_ahri :
    ∃ l, (clickChampion "Ahri" (loaded (sampleList "dyrus" "Ahri" "Ahri"))).scope.streams = some l ∧
      ∃ x ∈ l, (Dimension.champion.attr x).map JsField.key = .ok "Ahri" ∧
        accepts (filterchampion (clickChampion "Ahri"
          (loaded (sampleList "dyrus" "Ahri" "Ahri"))).scope x) = true :=
  selected_option_accepts (d := .champion) (k := "Ahri")
    ⟨sampleList "dyrus" "Ahri" "Ahri", .tail (e := .click .champion "Ahri") .refl trivial rfl⟩
    rfl (by decide) (by decide)

/-! ### Refreshing against loading afresh -/

/-- After a refresh with `S` each dynamic filter has the keys a first load of `S` would give
it, the old options keep their values and the new ones are unselected. -/
def RefreshAgrees (S : StreamList) (s : Scope) : Prop :=
  ∃ t u, refreshStreamsCallback S.streams s = .done t ∧
    streamsCallback S.streams .start = .done u ∧
    ∀ d, ∃ old new fresh, s.filter d = some old ∧ t.filter d = some new ∧
      u.filter d = some fresh ∧ (∀ k, k ∈ new.keys ↔ k ∈ fresh.keys) ∧
      (∀ k ∈ new.keys, k ∈ old.keys → new.owned k = old.owned k) ∧
      ∀ k ∈ new.keys, k ∉ old.keys → new.owned k = some (.bool false)

/-- What the list offers is carried as a string and either already an option or no inherited
name; what it carries of the old options it also offers. -/
def OffersItsOptions (S : StreamList) (s : Scope) : Prop :=
  ∀ d old, s.filter d = some old → ∀ k,
    (Offers d S.streams k → k ≠ "__proto__" →
      Carries d S.streams k ∧ (k ∈ objectPrototype → k ∈ old.keys)) ∧
    (k ∈ old.keys → Carries d S.streams k → Offers d S.streams k)

/-- Records that offer the strings they carry, none of which is inherited. -/
theorem offersItsOptions_of_plain {S : StreamList}
    (h : ∀ d : Dimension, ∀ x ∈ S.streams, ∃ a, (∀ k, d.offersKey k x = decide (a = k) ∧
      d.carriesKey k x = decide (a = k)) ∧ a ∉ objectPrototype) (s : Scope) :
    OffersItsOptions S s := by
  intro d old _ k
  constructor
  · rintro ⟨x, hx, hoffers⟩ _
    obtain ⟨a, ha, hp⟩ := h d x hx
    obtain rfl : a = k := of_decide_eq_true ((ha k).1.symm.trans hoffers)
    exact ⟨⟨x, hx, by rw [(ha a).2, decide_eq_true rfl]⟩, fun hk => absurd hk hp⟩
  · rintro _ ⟨x, hx, hcarries⟩
    obtain ⟨a, ha, _⟩ := h d x hx
    exact ⟨x, hx, by rw [(ha k).1, ← (ha k).2, hcarries]⟩

theorem refreshedValue_isSome {d : Dimension} {l : List Stream} {k : String}
    {old : Option Value} :
    (refreshedValue d l k old).isSome ↔
      Carries d l k ∧ (old.isSome ∨ Offers d l k ∧ k ∉ objectPrototype) := by
  unfold refreshedValue
  by_cases hc : Carries d l k
  · cases old with
    | none => by_cases h : Offers d l k ∧ k ∉ objectPrototype <;> simp [hc, h]
    | some v => simp [hc]
  · simp [hc]

/-- The keys after a refresh and after a first load coincide exactly when the list offers
its options. -/
theorem refreshed_keys_iff {d : Dimension} {l : List Stream} {old : JsObject} :
    (∀ k, (refreshedValue d l k (old.owned k)).isSome ↔ Offers d l k ∧ k ≠ "__proto__") ↔
      ∀ k, (Offers d l k → k ≠ "__proto__" →
        Carries d l k ∧ (k ∈ objectPrototype → k ∈ old.keys)) ∧
        (k ∈ old.keys → Carries d l k → Offers d l k) := by
  refine forall_congr' fun k => ?_
  rw [refreshedValue_isSome, JsObject.mem_keys]
  have hp : k ∉ objectPrototype → k ≠ "__proto__" :=
    fun h he => h (he ▸ proto_mem_objectPrototype)
  have ho : (old.owned k).isSome → k ≠ "__proto__" := by
    rintro h rfl
    simp at h
  tauto

theorem refreshAgrees_iff_of_filters (S : StreamList) {s : Scope} {f : Dimension → JsObject}
    (hs : ∀ d, s.filter d = some (f d)) : RefreshAgrees S s ↔ OffersItsOptions S s := by
  obtain ⟨t, ht, _, hnew⟩ := refreshStreamsCallback_spec S hs
  obtain ⟨u, hu, _, hfresh⟩ := streamsCallback_spec S .start
  choose new hn hnv using hnew
  choose fresh hf hfv using hfresh
  have hkeys : ∀ d, (∀ k, k ∈ (new d).keys ↔ k ∈ (fresh d).keys) ↔
      ∀ k, (Offers d S.streams k → k ≠ "__proto__" →
        Carries d S.streams k ∧ (k ∈ objectPrototype → k ∈ (f d).keys)) ∧
        (k ∈ (f d).keys → Carries d S.streams k → Offers d S.streams k) := by
    intro d
    rw [← refreshed_keys_iff]
    refine forall_congr' fun k => ?_
    rw [JsObject.mem_keys, JsObject.mem_keys, hnv, hfv]
    by_cases h : Offers d S.streams k ∧ k ≠ "__proto__"
    · simp [h]
    · simp only [h]
      simp
  constructor
  · rintro ⟨t', u', ht', hu', hd⟩ d old hold
    obtain rfl : t = t' := Outcome.done.inj (ht.symm.trans ht')
    obtain rfl : u = u' := Outcome.done.inj (hu.symm.trans hu')
    obtain ⟨old', new', fresh', ho, hn', hf', hk, _⟩ := hd d
    obtain rfl : new d = new' := Option.some.inj ((hn d).symm.trans hn')
    obtain rfl : fresh d = fresh' := Option.some.inj ((hf d).symm.trans hf')
    obtain rfl : f d = old := Option.some.inj ((hs d).symm.trans hold)
    exact (hkeys d).mp hk
  · intro h
    refine ⟨t, u, ht, hu, ?_⟩
    intro d
    refine ⟨f d, new d, fresh d, hs d, hn d, hf d, (hkeys d).mpr (h d (f d) (hs d)), ?_, ?_⟩
    · intro k hk hold
      rw [JsObject.mem_keys, hnv, refreshedValue_isSome] at hk
      rw [JsObject.mem_keys] at hold
      rw [hnv, refreshedValue, if_pos hk.1, if_neg]
      rintro ⟨hnone, _⟩
      simp [hnone] at hold
    · intro k hk hold
      rw [JsObject.mem_keys, hnv, refreshedValue_isSome] at hk
      rw [JsObject.mem_keys, Option.not_isSome_iff_eq_none] at hold
      have hoff : Offers d S.streams k ∧ k ∉ objectPrototype := by simpa [hold] using hk.2
      rw [hnv, refreshedValue, if_pos hk.1, if_pos ⟨hold, hoff⟩]

/-- The two callbacks agree on a reachable state exactly when the list offers its options. -/
theorem refresh_agrees_with_load (S : StreamList) {s : Scope} (h : ListReached s) :
    RefreshAgrees S s ↔ OffersItsOptions S s := by
  obtain ⟨_, _, hd⟩ := h.optionsBacked
  choose f hf _ using hd
  exact refreshAgrees_iff_of_filters S hf

/-- Draven is in the first answer and Jinx in the second, and Ahri in both. -/
def firstAnswer : StreamList :=
  (sampleList "dyrus" "Ahri" "Ahri").append (sampleList "imaqtpie" "Draven" "Draven")

def secondAnswer : StreamList :=
  (sampleList "dyrus" "Ahri" "Ahri").append (sampleList "imaqtpie" "Jinx" "Jinx")

/-- The page after a refresh and a click. -/
def clickedAhri : Scope :=
  (clickChampion "Ahri" (refreshStreamsCallback secondAnswer.streams (loaded firstAnswer)).scope).scope

theorem refresh_agrees_with_load_ahri :
    RefreshAgrees ((sampleList "imaqtpie" "Jinx" "Jinx").append (sampleList "dyrus" "Lux" "Lux"))
      clickedAhri := by
  have hrun : ListReached clickedAhri :=
    ⟨firstAnswer, .tail (e := .click .champion "Ahri")
      (.tail (e := .refresh secondAnswer) .refl trivial rfl) trivial rfl⟩
  refine (refresh_agrees_with_load _ hrun).mpr (offersItsOptions_of_plain ?_ clickedAhri)
  intro d x hx
  rcases List.mem_append.mp hx with hx | hx
  · obtain rfl := List.mem_singleton.mp hx
    cases d with
    | champion => exact ⟨"Jinx", fun _ => ⟨rfl, rfl⟩, by decide⟩
    | lang => exact ⟨"en", fun _ => ⟨rfl, rfl⟩, by decide⟩
    | team => exact ⟨"tsm", fun _ => ⟨rfl, rfl⟩, by decide⟩
  · obtain rfl := List.mem_singleton.mp hx
    cases d with
    | champion => exact ⟨"Lux", fun _ => ⟨rfl, rfl⟩, by decide⟩
    | lang => exact ⟨"en", fun _ => ⟨rfl, rfl⟩, by decide⟩
    | team => exact ⟨"tsm", fun _ => ⟨rfl, rfl⟩, by decide⟩

/-- A player who has left the game keeps his champion as an option over a refresh, while a
fresh load would not offer it. -/
theorem refresh_disagrees_after_game :
    ¬ ∀ S s, ListReached s → RefreshAgrees S s := by
  intro h
  obtain ⟨t, u, ht, hu, hd⟩ := h (sampleList "dyrus" "Not in game." "Ahri")
    (loaded (sampleList "dyrus" "Ahri" "Ahri")) ⟨_, .refl⟩
  cases ht
  cases hu
  obtain ⟨old, new, fresh, _, hn, hf, hk, _⟩ := hd .champion
  cases hn
  cases hf
  exact absurd (hk "Ahri") (by decide)

end LolStreams
