import LolStreams.Scope

/-! The callbacks that write `fav_filter` and the Following checkbox. Reading `fav_filter`
before the first favourites answer is reading a property of `undefined`, which throws. -/
namespace LolStreams

/-- `x || false` -/
def orFalse (x : Option Value) : Value :=
  match x with
  | some v => if v.truthy then v else .bool false
  | none => .bool false

/-- `fav_filter[name] = fav_filter[name] || false` -/
def listFavorite (o : JsObject) (favorite : Favorite) : JsObject :=
  o.put favorite.channel.name (orFalse (o.get favorite.channel.name))

/-- The success callback of `Favorite.query`, the same at controller start and in
`refresh_streams`. -/
def favoritesCallback (favstreams : List Favorite) (s : Scope) : Scope :=
  { s with
    favFilter := some (favstreams.foldl listFavorite .empty)
    favstreams := some favstreams }

/-- The success callback of `User.get`. -/
def userCallback (user : User) (s : Scope) : Scope := { s with user := some user }

/-- The success callback of `follow` for a channel. -/
def followCallback (name : String) (s : Scope) : Outcome :=
  match s.favFilter with
  | none => .threw s
  | some o => .done { s with favFilter := some (o.put name (.bool s.favBox)) }

/-- The success callback of `unfollow` for a channel. -/
def unfollowCallback (name : String) (s : Scope) : Outcome :=
  match s.favFilter with
  | none => .threw s
  | some o => .done { s with favFilter := some (o.delete name) }

/-- The success callback of `/logout`. -/
def logoutCallback (s : Scope) : Scope := { s with favstreams := none, user := none }

/-- The own keys still to be visited by `angular.forEach`, which calls `obj.hasOwnProperty`
before each of them. Returns whether the loop ran through. -/
def markEach (mark : Bool) : List String → JsObject → Bool × JsObject
  | [], o => (true, o)
  | key :: keys, o =>
    match o.get "hasOwnProperty" with
    | some (.builtin _) => markEach mark keys (o.put key (.bool mark))
    | _ => (false, o)

/-- `click_fav(fav_filter)`: the argument is the object that `fav_filter` refers to, and
`angular.forEach` tries a method `forEach` of it first. -/
def clickFav (s : Scope) : Outcome :=
  let t := { s with favBox := !s.favBox }
  match s.favFilter with
  | none => .threw t
  | some fav =>
    if eqZero (fav.get "length") then
      .done { t with favFilter := some (fav.put "favoritesempty" (.bool t.favBox)) }
    else if truthy (fav.get "forEach") then .threw t
    else
      match markEach t.favBox fav.keys fav with
      | (true, o) => .done { t with favFilter := some o }
      | (false, o) => .threw { t with favFilter := some o }

theorem favFilter_followCallback (name : String) (s : Scope) :
    (followCallback name s).scope.favFilter = s.favFilter.map fun o => o.put name (.bool s.favBox) := by
  cases h : s.favFilter <;> simp [followCallback, Outcome.scope, h]

theorem favFilter_unfollowCallback (name : String) (s : Scope) :
    (unfollowCallback name s).scope.favFilter = s.favFilter.map fun o => o.delete name := by
  cases h : s.favFilter <;> simp [unfollowCallback, Outcome.scope, h]

theorem owned_listFavorite (o : JsObject) (f : Favorite) (k : String) :
    (listFavorite o f).owned k =
      if k = f.channel.name ∧ f.channel.name ≠ "__proto__" then
        some (orFalse (o.get f.channel.name)) else o.owned k :=
  JsObject.owned_put _ _ _ _

def names (favstreams : List Favorite) : List String := favstreams.map fun f => f.channel.name

theorem names_cons (f : Favorite) (fs : List Favorite) :
    names (f :: fs) = f.channel.name :: names fs := rfl

/-- Exactly the listed channels get a mark. -/
theorem mem_keys_listed (fs : List Favorite) (o : JsObject) (k : String) :
    k ∈ (fs.foldl listFavorite o).keys ↔ k ∈ o.keys ∨ k ∈ names fs ∧ k ≠ "__proto__" := by
  induction fs generalizing o with
  | nil => simp [names]
  | cons f fs ih =>
    rw [List.foldl_cons, ih, names_cons, JsObject.mem_keys, JsObject.mem_keys,
      owned_listFavorite, List.mem_cons]
    by_cases hk : k = f.channel.name
    · rw [← hk]
      by_cases hp : k = "__proto__"
      · simp [hp]
      · simp [hp]
    · simp [hk]

/-- A fresh mark is `false` under a name that no object inherits. -/
theorem owned_listed_plain {fs : List Favorite} {o : JsObject} {k : String}
    (hk : k ∉ objectPrototype) (ho : ∀ v, o.owned k = some v → v = .bool false) {v : Value}
    (h : (fs.foldl listFavorite o).owned k = some v) : v = .bool false := by
  induction fs generalizing o with
  | nil => exact ho v h
  | cons f fs ih =>
    refine ih ?_ h
    intro w hw
    rw [owned_listFavorite] at hw
    split_ifs at hw with hf
    · rw [← hf.1, JsObject.get_eq_owned hk] at hw
      cases hn : o.owned k with
      | none =>
        rw [hn] at hw
        exact (Option.some.inj hw).symm
      | some u =>
        rw [hn, ho u hn] at hw
        exact (Option.some.inj hw).symm
    · exact ho w hw

/-- The loop over the own keys runs through once `hasOwnProperty` is not shadowed, and gives
every visited key the mark. -/
theorem markEach_plain (mark : Bool) {ks : List String} {o : JsObject}
    (hk : ∀ k ∈ ks, k ∈ o.keys) (ho : "hasOwnProperty" ∉ o.keys) :
    ∃ m, markEach mark ks o = (true, m) ∧
      ∀ k, m.owned k = if k ∈ ks then some (.bool mark) else o.owned k := by
  induction ks generalizing o with
  | nil => exact ⟨o, rfl, by simp⟩
  | cons k ks ih =>
    have hget : o.get "hasOwnProperty" = some (.builtin "hasOwnProperty") := by
      rw [JsObject.mem_keys, Option.not_isSome_iff_eq_none] at ho
      simp [JsObject.get, ho, objectPrototype]
    have hmem : k ∈ o.keys := hk k List.mem_cons_self
    have hp : k ≠ "__proto__" := fun h => o.proto_not_own (h ▸ hmem)
    have hh : k ≠ "hasOwnProperty" := fun h => ho (h ▸ hmem)
    have hput : ∀ j, (o.put k (.bool mark)).owned j =
        if j = k then some (.bool mark) else o.owned j := by
      intro j
      simp [JsObject.owned_put, hp]
    have hown : ∀ j ∈ ks, j ∈ (o.put k (.bool mark)).keys := by
      intro j hj
      rw [JsObject.mem_keys, hput]
      split_ifs
      · rfl
      · exact JsObject.mem_keys.mp (hk j (List.mem_cons_of_mem _ hj))
    have hplain : "hasOwnProperty" ∉ (o.put k (.bool mark)).keys := by
      rw [JsObject.mem_keys, hput, if_neg (Ne.symm hh), ← JsObject.mem_keys]
      exact ho
    obtain ⟨m, hm, hv⟩ := ih hown hplain
    have hloop : markEach mark (k :: ks) o = (true, m) := by simp only [markEach, hget, hm]
    refine ⟨m, hloop, ?_⟩
    intro j
    rw [hv, hput]
    by_cases hj : j ∈ ks <;> by_cases hjk : j = k <;> simp [hj, hjk]

end LolStreams
