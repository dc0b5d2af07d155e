import LolStreams.Favorites
import LolStreams.Runs
import LolStreams.StreamList

/-! The Following checkbox of a signed-in client against the channels it knows to be
followed, over runs that begin with the first favourites answer. -/
namespace LolStreams

inductive FollowEvent
  | click
  | favorites (answer : List Favorite)
  | follow (name : String)
  | unfollow (name : String)

/-- The page, and the followed channels known from the answers so far. -/
structure Following where
  scope : Scope
  followed : Finset String

namespace Following

def start : Following := ⟨.start, ∅⟩

/-- The checkbox and the links are there once a favourites answer has come in. An exception
ends the callback that throws it, not the run. -/
def step (f : Following) : FollowEvent → Option Following
  | .favorites answer =>
    some ⟨favoritesCallback answer f.scope, (names answer).toFinset⟩
  | .click =>
    if f.scope.favstreams.isSome then some { f with scope := (clickFav f.scope).scope } else none
  | .follow name =>
    if f.scope.favstreams.isSome then
      some ⟨(followCallback name f.scope).scope, insert name f.followed⟩
    else none
  | .unfollow name =>
    if f.scope.favstreams.isSome then
      some ⟨(unfollowCallback name f.scope).scope, f.followed.erase name⟩
    else none

/-- A favourites answer comes in while the box is not ticked and lists no inherited name; a
click finds `hasOwnProperty`, `forEach` and `length` meaning what `click_fav` takes them to
mean; and the last mark is neither missing when the box is ticked nor deleted under it. The
setter of `__proto__` takes no mark, which is why that name does not count. -/
def Steady (f : Following) : FollowEvent → Prop
  | .favorites answer =>
    f.scope.favBox = false ∧ ∀ c ∈ names answer, c ∈ objectPrototype → c = "__proto__"
  | .click =>
    "hasOwnProperty" ∉ f.followed ∧
      if f.scope.favBox then "forEach" ∉ f.followed
      else "length" ∉ f.followed ∧ ∃ c ∈ f.followed, c ≠ "__proto__"
  | .follow _ => True
  | .unfollow name => f.scope.favBox = true → ∃ c ∈ f.followed, c ≠ name ∧ c ≠ "__proto__"

end Following

/-- The own properties of the map are the followed channels, all with the same mark. -/
def Marks (o : JsObject) (followed : Finset String) (mark : Bool) : Prop :=
  ∀ k, o.owned k = if k ∈ followed ∧ k ≠ "__proto__" then some (.bool mark) else none

namespace Marks

variable {o : JsObject} {followed : Finset String} {mark : Bool}

theorem mem_keys (h : Marks o followed mark) (k : String) :
    k ∈ o.keys ↔ k ∈ followed ∧ k ≠ "__proto__" := by
  rw [JsObject.mem_keys, h]
  split_ifs with hk <;> simp [hk]

theorem listed {answer : List Favorite}
    (hp : ∀ c ∈ names answer, c ∈ objectPrototype → c = "__proto__") :
    Marks (answer.foldl listFavorite .empty) (names answer).toFinset false := by
  intro k
  have hk := mem_keys_listed answer .empty k
  simp only [JsObject.keys_empty, List.not_mem_nil, false_or, JsObject.mem_keys] at hk
  cases hv : (answer.foldl listFavorite .empty).owned k with
  | none =>
    rw [hv] at hk
    rw [if_neg]
    simpa using hk
  | some v =>
    rw [hv] at hk
    have hlisted : k ∈ names answer ∧ k ≠ "__proto__" := by simpa using hk
    have hplain : k ∉ objectPrototype := fun hm => hlisted.2 (hp k hlisted.1 hm)
    have hfalse : v = .bool false := owned_listed_plain hplain (by simp) hv
    rw [hfalse, if_pos]
    simpa using hlisted

theorem put (h : Marks o followed mark) (name : String) :
    Marks (o.put name (.bool mark)) (insert name followed) mark := by
  intro k
  rw [JsObject.owned_put, h]
  by_cases hk : k = name
  · by_cases hp : name = "__proto__"
    · simp [hk, hp]
    · simp [hk, hp]
  · simp [hk]

theorem delete (h : Marks o followed mark) (name : String) :
    Marks (o.delete name) (followed.erase name) mark := by
  intro k
  rw [JsObject.owned_delete, h]
  by_cases hk : k = name
  · simp [hk]
  · simp [hk]

/-- Marking every own key with `m` turns one mark into the other. -/
theorem marked (h : Marks o followed mark) (m : Bool) (hh : "hasOwnProperty" ∉ followed) :
    ∃ o', markEach m o.keys o = (true, o') ∧ Marks o' followed m := by
  have hown : "hasOwnProperty" ∉ o.keys := fun hk => hh ((h.mem_keys _).mp hk).1
  obtain ⟨o', ho', hv⟩ := markEach_plain m (fun _ hk => hk) hown
  refine ⟨o', ho', ?_⟩
  intro k
  rw [hv, h]
  simp only [h.mem_keys]
  split_ifs <;> rfl

theorem anySelected (h : Marks o followed mark) :
    o.anySelected = true ↔ mark = true ∧ ∃ c ∈ followed, c ≠ "__proto__" := by
  rw [JsObject.anySelected_iff]
  constructor
  · rintro ⟨k, v, hv, ht⟩
    rw [h] at hv
    split_ifs at hv with hk
    obtain rfl := Option.some.inj hv
    exact ⟨ht, k, hk⟩
  · rintro ⟨rfl, k, hk⟩
    have ho : o.owned k = some (.bool true) := by rw [h, if_pos hk]
    exact ⟨k, .bool true, ho, rfl⟩

/-- A read is truthy exactly on the followed channels, the inherited names apart. -/
theorem truthy_get (h : Marks o followed true) {name : String}
    (hn : name ∈ objectPrototype → name ∈ followed) :
    truthy (o.get name) = true ↔ name ∈ followed := by
  by_cases hf : name ∈ followed
  · by_cases hp : name = "__proto__"
    · subst hp
      simp [JsObject.get, proto_mem_objectPrototype, hf]
    · have ho : o.owned name = some (.bool true) := by rw [h, if_pos ⟨hf, hp⟩]
      simp [JsObject.get_of_owned ho, hf]
  · have ho : o.owned name = none := by
      rw [h, if_neg]
      exact fun hc => hf hc.1
    rw [JsObject.get_eq_none.mpr ⟨ho, fun hp => hf (hn hp)⟩]
    simp [hf]

end Marks

namespace Following

/-- The marks are in step with the checkbox, and a ticked box has a mark to show. -/
structure InStep (f : Following) : Prop where
  unloaded : f.scope.favFilter = none → f.scope.favstreams = none ∧ f.scope.favBox = false
  marks : ∀ o, f.scope.favFilter = some o → Marks o f.followed f.scope.favBox
  shown : f.scope.favBox = true → ∃ c ∈ f.followed, c ≠ "__proto__"

theorem inStep_start : InStep start := by
  refine ⟨fun _ => ⟨rfl, rfl⟩, ?_, ?_⟩
  · intro o ho
    cases ho
  · intro hb
    cases hb

theorem InStep.filter {f : Following} (h : f.InStep) (hs : f.scope.favstreams.isSome) :
    ∃ o, f.scope.favFilter = some o ∧ Marks o f.followed f.scope.favBox := by
  cases ho : f.scope.favFilter with
  | none => simp [(h.unloaded ho).1] at hs
  | some o => exact ⟨o, rfl, h.marks o ho⟩

/-- A steady click turns the checkbox and all marks over. -/
theorem clickFav_steady {f : Following} {o : JsObject} (ho : f.scope.favFilter = some o)
    (hm : Marks o f.followed f.scope.favBox) (hok : f.Steady .click) :
    ∃ o', clickFav f.scope =
        .done { f.scope with favBox := !f.scope.favBox, favFilter := some o' } ∧
      Marks o' f.followed (!f.scope.favBox) ∧
      (f.scope.favBox = false → ∃ c ∈ f.followed, c ≠ "__proto__") := by
  obtain ⟨hh, hb⟩ := hok
  obtain ⟨o', ho', hm'⟩ := hm.marked (!f.scope.favBox) hh
  have hread : ∀ k, k ∉ objectPrototype →
      o.get k = if k ∈ f.followed ∧ k ≠ "__proto__" then some (.bool f.scope.favBox) else none := by
    intro k hk
    rw [JsObject.get_eq_owned hk, hm]
  have hlength : eqZero (o.get "length") = false := by
    rw [hread _ (by decide)]
    cases hbox : f.scope.favBox with
    | false =>
      rw [hbox] at hb
      have hl : "length" ∉ f.followed := hb.1
      simp [hl, eqZero]
    | true =>
      split_ifs <;> rfl
  have hforEach : truthy (o.get "forEach") = false := by
    rw [hread _ (by decide)]
    cases hbox : f.scope.favBox with
    | false => split_ifs <;> rfl
    | true =>
      rw [hbox] at hb
      have hl : "forEach" ∉ f.followed := hb
      simp [hl]
  refine ⟨o', ?_, hm', ?_⟩
  · simp only [clickFav, ho, hlength, hforEach, ho', Bool.false_eq_true, if_false]
  · intro hbox
    rw [hbox] at hb
    exact hb.2

theorem inStep_step {f g : Following} {e : FollowEvent} (h : f.InStep) (hok : f.Steady e)
    (hg : f.step e = some g) : g.InStep := by
  cases e with
  | favorites answer =>
    obtain ⟨hb, hp⟩ := hok
    obtain rfl := Option.some.inj hg
    refine ⟨by simp [favoritesCallback], ?_, ?_⟩
    · intro o ho
      obtain rfl := Option.some.inj ho
      simp only [favoritesCallback, hb]
      exact Marks.listed hp
    · simp [favoritesCallback, hb]
  | click =>
    simp only [step, Option.ite_none_right_eq_some] at hg
    obtain ⟨hs, hg⟩ := hg
    obtain rfl := Option.some.inj hg
    obtain ⟨o, ho, hm⟩ := h.filter hs
    obtain ⟨o', hc, hm', hshown⟩ := clickFav_steady ho hm hok
    rw [hc]
    refine ⟨by simp [Outcome.scope], ?_, ?_⟩
    · intro p hp
      obtain rfl := Option.some.inj hp
      exact hm'
    · intro hb
      exact hshown (by simpa [Outcome.scope] using hb)
  | follow name =>
    simp only [step, Option.ite_none_right_eq_some] at hg
    obtain ⟨hs, hg⟩ := hg
    obtain rfl := Option.some.inj hg
    obtain ⟨o, ho, hm⟩ := h.filter hs
    simp only [followCallback, ho, Outcome.scope]
    refine ⟨by simp, ?_, ?_⟩
    · intro p hp
      obtain rfl := Option.some.inj hp
      exact hm.put name
    · intro hb
      obtain ⟨c, hc, hp⟩ := h.shown hb
      exact ⟨c, Finset.mem_insert_of_mem hc, hp⟩
  | unfollow name =>
    simp only [step, Option.ite_none_right_eq_some] at hg
    obtain ⟨hs, hg⟩ := hg
    obtain rfl := Option.some.inj hg
    obtain ⟨o, ho, hm⟩ := h.filter hs
    simp only [unfollowCallback, ho, Outcome.scope]
    refine ⟨by simp, ?_, ?_⟩
    · intro p hp
      obtain rfl := Option.some.inj hp
      exact hm.delete name
    · intro hb
      obtain ⟨c, hc, hn, hp⟩ := hok hb
      exact ⟨c, Finset.mem_erase.mpr ⟨hn, hc⟩, hp⟩

/-- In step, the filter shows what the checkbox promises. -/
theorem InStep.accepts_iff {f : Following} (h : f.InStep) {x : Stream} {c : Channel}
    (hx : x.channel = .val c)
    (hc : f.scope.favBox = true → c.name ∈ objectPrototype → c.name ∈ f.followed) :
    accepts (filterfav f.scope x) = true ↔ f.scope.favBox = false ∨ c.name ∈ f.followed := by
  have hattr : x.channel.deref.map Channel.name = .ok c.name := by
    rw [hx]
    rfl
  cases ho : f.scope.favFilter with
  | none => simp [filterfav, ho, (h.unloaded ho).2, accepts]
  | some o =>
    have hm := h.marks o ho
    have hsel := hm.anySelected
    simp only [filterfav, ho, selectFrom_some, JsObject.select_eq, hattr]
    cases hb : f.scope.favBox with
    | false =>
      have hno : o.anySelected = false := by simpa [hb] using hsel
      simp [hno, accepts]
    | true =>
      rw [hb] at hm hsel
      rw [if_pos (hsel.mpr ⟨rfl, h.shown hb⟩)]
      simpa [accepts, Except.map] using hm.truthy_get (hc hb)

end Following

/-- Over steady runs, a ticked box shows exactly the followed channels and an unticked one
shows everything; while it is ticked an inherited name reads as followed in any case. -/
theorem steady_filter_shows_followed {f : Following}
    (h : Runs.Guarded Following.step Following.Steady .start f) (x : Stream) (c : Channel)
    (hx : x.channel = .val c)
    (hc : f.scope.favBox = true → c.name ∈ objectPrototype → c.name ∈ f.followed) :
    accepts (filterfav f.scope x) = true ↔ f.scope.favBox = false ∨ c.name ∈ f.followed := by
  have hi : f.InStep := Runs.Guarded.invariant Following.inStep_start
    (fun _ _ _ hi hok hg => Following.inStep_step hi hok hg) h
  exact hi.accepts_iff hx hc

def followsDyrus : List Favorite := [⟨⟨"dyrus", .val "en"⟩⟩]

/-- The page after a favourites answer with one channel and a click on the checkbox. -/
def tickedDyrus : Following :=
  ⟨(clickFav (favoritesCallback followsDyrus .start)).scope, {"dyrus"}⟩

theorem steady_filter_shows_followed_dyrus :
    tickedDyrus.scope.favBox = true ∧
      (accepts (filterfav tickedDyrus.scope (sampleStream "dyrus" "Ahri" "Ahri")) = true ↔
        tickedDyrus.scope.favBox = false ∨ "dyrus" ∈ tickedDyrus.followed) := by
  refine ⟨by decide, ?_⟩
  refine steady_filter_shows_followed ?_ _ ⟨"dyrus", .val "en"⟩ rfl (by decide)
  refine .tail (e := .click) (.tail (e := .favorites followsDyrus) .refl ?_ rfl) ?_ rfl
  · exact ⟨rfl, by decide⟩
  · exact ⟨by decide, by decide⟩

/-- The next favourites answer unticks every mark and leaves the box ticked: a channel that
is not followed is shown. -/
theorem refreshed_filter_shows_unfollowed :
    ¬ ∀ f, Runs.Reaches Following.step .start f → ∀ (x : Stream) (c : Channel),
      x.channel = .val c →
      (accepts (filterfav f.scope x) = true ↔ f.scope.favBox = false ∨ c.name ∈ f.followed) := by
  intro h
  have hrun : Runs.run Following.step .start
      [.favorites followsDyrus, .click, .favorites followsDyrus] =
        some ⟨favoritesCallback followsDyrus tickedDyrus.scope, {"dyrus"}⟩ := rfl
  have hshown := h _ (Runs.reaches_of_run hrun) (sampleStream "imaqtpie" "Draven" "Draven")
    ⟨"imaqtpie", .val "en"⟩ rfl
  exact absurd (hshown.mp (by decide)) (by decide)

end LolStreams
