import LolStreams.FollowProtocol
import LolStreams.StreamList

/-! Signing out with requests in flight. The cookie is deleted when the server handles
`/logout`; the page clears `favstreams` and `user` when the answer comes in. What the server
has served before may come in after that. -/
namespace LolStreams

inductive SessionCall
  | account (call : Call)
  | user
  | logout
  deriving DecidableEq, Repr

inductive SessionAnswer
  | account (answer : Answer)
  | nullFavorites
  | user (user : User)
  | logout
  deriving DecidableEq, Repr

inductive SessionMessage
  | request (call : SessionCall)
  | answered (answer : SessionAnswer)
  deriving DecidableEq, Repr

def User.named (user : User) : Bool := !user.name.eqUndefined

/-- Which answers the server may give. Without the cookie Twitch sends no name and no
streams, so that the body of the favourites answer is `null`. The routes set no content type,
and of their bodies the page parses those that look like an array or an object. -/
def serves (cookie : Bool) : SessionCall → SessionAnswer → Bool
  | .account (.follow n), .account (.followed m) => n = m
  | .account (.unfollow n), .account (.unfollowed m) => n = m
  | .account .favorites, .account (.favorites _) => cookie
  | .account .favorites, .nullFavorites => !cookie
  | .user, .user user => cookie || !user.named
  | .logout, .logout => true
  | _, _ => false

/-- The text `null` is not an array, so that `$resource` rejects it before any callback. -/
def sessionCallback (answer : SessionAnswer) (s : Scope) : Outcome :=
  match answer with
  | .account answer => answerCallback answer s
  | .nullFavorites => .done s
  | .user user => .done (userCallback user s)
  | .logout => .done (logoutCallback s)

/-- `user.name !== undefined` -/
def offersAccount (s : Scope) : Bool :=
  match s.user with
  | some user => user.name ≠ .undefined
  | none => false

/-- `ng-if="user.name"` -/
def offersLogout (s : Scope) : Bool :=
  match s.user with
  | some user =>
    match user.name with
    | .val name => name ≠ ""
    | _ => false
  | none => false

structure Session where
  page : Scope
  cookie : Bool
  loggedOut : Bool
  net : List SessionMessage

inductive SessionEvent
  | refresh
  | clickFav
  | clickFollow (name : String)
  | clickUnfollow (name : String)
  | logout
  | serve (call : SessionCall) (answer : SessionAnswer)
  | deliver (answer : SessionAnswer)
  | streams (answer : List Stream)
  | refreshStreams (answer : List Stream)

namespace Session

/-- The controller of a signed-in client has started. -/
def start : Session where
  page := .start
  cookie := true
  loggedOut := false
  net := [.request .user, .request (.account .favorites)]

def send (s : Session) (call : SessionCall) : Session := { s with net := .request call :: s.net }

/-- Answers to the stream queries are events of their own, as the server needs no cookie for
them. -/
def step (s : Session) : SessionEvent → Option Session
  | .refresh => some ((s.send (.account .favorites)).send .user)
  | .clickFav =>
    if s.page.favstreams.isSome then some { s with page := (LolStreams.clickFav s.page).scope }
    else none
  | .clickFollow name =>
    if offersFollow s.page name && offersAccount s.page then
      some (s.send (.account (.follow name)))
    else none
  | .clickUnfollow name =>
    if offersUnfollow s.page name && offersAccount s.page then
      some (s.send (.account (.unfollow name)))
    else none
  | .logout => if offersLogout s.page then some (s.send .logout) else none
  | .serve call answer =>
    if .request call ∈ s.net ∧ serves s.cookie call answer = true then
      some { s with
        cookie := s.cookie && call ≠ .logout
        net := .answered answer :: s.net.erase (.request call) }
    else none
  | .deliver answer =>
    if .answered answer ∈ s.net then
      some { s with
        page := (sessionCallback answer s.page).scope
        loggedOut := s.loggedOut || answer = .logout
        net := s.net.erase (.answered answer) }
    else none
  | .streams answer => some { s with page := (streamsCallback answer s.page).scope }
  | .refreshStreams answer => some { s with page := (refreshStreamsCallback answer s.page).scope }

/-- The logout answer comes in while no mark is set; after it no favourites answer that was
served before, no user answer with a name and, under a ticked box, no follow answer that finds
the map. -/
def Clean (s : Session) : SessionEvent → Prop
  | .deliver .logout => ∀ o, s.page.favFilter = some o → o.anySelected = false
  | .deliver (.user user) => s.loggedOut = true → user.named = false
  | .deliver (.account (.favorites _)) => s.loggedOut = false
  | .deliver (.account (.followed _)) =>
    s.loggedOut = true → s.page.favBox = true → s.page.favFilter = none
  | _ => True

end Session

/-! ### Stream answers leave the account alone -/

namespace Scope

/-- The variables that hold something of the account. -/
def SameAccount (s t : Scope) : Prop :=
  t.user = s.user ∧ t.favstreams = s.favstreams ∧ t.favFilter = s.favFilter ∧ t.favBox = s.favBox

theorem SameAccount.refl (s : Scope) : SameAccount s s := ⟨rfl, rfl, rfl, rfl⟩

theorem SameAccount.trans {s t u : Scope} (h : SameAccount s t) (g : SameAccount t u) :
    SameAccount s u := by
  obtain ⟨h₁, h₂, h₃, h₄⟩ := h
  obtain ⟨g₁, g₂, g₃, g₄⟩ := g
  exact ⟨g₁.trans h₁, g₂.trans h₂, g₃.trans h₃, g₄.trans h₄⟩

theorem sameAccount_setFilter (s : Scope) (d : Dimension) (o : JsObject) :
    SameAccount s (s.setFilter d o) := by
  cases d <;> exact ⟨rfl, rfl, rfl, rfl⟩

theorem SameAccount.andThen {s : Scope} {o : Outcome} {f : Scope → Outcome}
    (h : SameAccount s o.scope) (hf : ∀ t, SameAccount t (f t).scope) :
    SameAccount s (o.andThen f).scope := by
  cases o with
  | done t => exact h.trans (hf t)
  | threw t => exact h

theorem sameAccount_offerOption (write : JsObject → String → JsObject) (d : Dimension)
    (s : Scope) (x : Stream) : SameAccount s (offerOption write d s x).scope := by
  unfold offerOption
  split
  · exact .refl s
  · exact .refl s
  · split
    · exact sameAccount_setFilter s d _
    · exact .refl s

theorem sameAccount_forEachStream (write : JsObject → String → JsObject) (s : Scope)
    (xs : List Stream) : SameAccount s (forEachStream (offerOptions write) s xs).scope := by
  induction xs generalizing s with
  | nil => exact .refl s
  | cons x xs ih =>
    refine SameAccount.andThen ?_ ih
    refine SameAccount.andThen (SameAccount.andThen ?_ ?_) ?_
    · exact sameAccount_offerOption write .champion s x
    · exact fun t => sameAccount_offerOption write .lang t x
    · exact fun t => sameAccount_offerOption write .team t x

theorem sameAccount_pruneKeys (d : Dimension) (xs : List Stream) (ks : List String) (s : Scope) :
    SameAccount s (pruneKeys d xs ks s).scope := by
  induction ks generalizing s with
  | nil => exact .refl s
  | cons k ks ih =>
    unfold pruneKeys
    split
    · exact ih s
    · exact (sameAccount_setFilter s d _).trans (ih _)
    · exact .refl s

theorem sameAccount_prune (d : Dimension) (xs : List Stream) (s : Scope) :
    SameAccount s (prune d xs s).scope := by
  unfold prune
  split
  · exact .refl s
  · exact sameAccount_pruneKeys d xs _ s

theorem sameAccount_streamsCallback (xs : List Stream) (s : Scope) :
    SameAccount s (streamsCallback xs s).scope := by
  have h := sameAccount_forEachStream assignFalse { s with
    streams := some xs
    championFilter := some .empty
    langFilter := some .empty
    teamFilter := some .empty } xs
  exact h

theorem sameAccount_refreshStreamsCallback (xs : List Stream) (s : Scope) :
    SameAccount s (refreshStreamsCallback xs s).scope := by
  have h := sameAccount_forEachStream assignIfUndefined { s with streams := some xs } xs
  exact ((h.andThen (sameAccount_prune .champion xs)).andThen
    (sameAccount_prune .lang xs)).andThen (sameAccount_prune .team xs)

end Scope

/-! ### Marks that are not set -/

theorem JsObject.anySelected_eq_false {o : JsObject} :
    o.anySelected = false ↔ ∀ k v, o.owned k = some v → v.truthy = false := by
  rw [← Bool.not_eq_true, JsObject.anySelected_iff]
  simp only [not_exists, not_and, Bool.not_eq_true]

theorem anySelected_put_false {o : JsObject} (h : o.anySelected = false) (k : String) :
    (o.put k (.bool false)).anySelected = false := by
  rw [JsObject.anySelected_eq_false] at h ⊢
  intro j v hv
  rw [JsObject.owned_put] at hv
  split_ifs at hv
  · obtain rfl := Option.some.inj hv
    rfl
  · exact h j v hv

theorem anySelected_delete {o : JsObject} (h : o.anySelected = false) (k : String) :
    (o.delete k).anySelected = false := by
  rw [JsObject.anySelected_eq_false] at h ⊢
  intro j v hv
  rw [JsObject.owned_delete] at hv
  split_ifs at hv
  exact h j v hv

/-- With no mark set the filter accepts every record, also one without a channel. -/
theorem accepts_filterfav {s : Scope} (h : ∀ o, s.favFilter = some o → o.anySelected = false)
    (x : Stream) : accepts (filterfav s x) = true := by
  unfold filterfav
  cases ho : s.favFilter with
  | none => rfl
  | some o => simp [JsObject.select_eq, h o ho, accepts]

/-! ### After the logout -/

/-- Nothing of the account is left in the scope. -/
structure Scope.SignedOut (s : Scope) : Prop where
  user : ∀ u, s.user = some u → u.named = false
  favstreams : s.favstreams = none
  marks : ∀ o, s.favFilter = some o → o.anySelected = false

theorem Scope.SignedOut.of_sameAccount {s t : Scope} (h : s.SignedOut) (g : s.SameAccount t) :
    t.SignedOut := by
  obtain ⟨hu, hf, hm, _⟩ := g
  exact ⟨hu ▸ h.user, hf.trans h.favstreams, hm ▸ h.marks⟩

theorem Scope.SignedOut.followed {s : Scope} (h : s.SignedOut) (name : String)
    (hb : s.favBox = true → s.favFilter = none) :
    (followCallback name s).scope.SignedOut := by
  cases ho : s.favFilter with
  | none =>
    simp only [followCallback, ho]
    exact h
  | some o =>
    have hbox : s.favBox = false := by
      cases hv : s.favBox with
      | false => rfl
      | true => simp [hb hv] at ho
    simp only [followCallback, ho, hbox]
    refine ⟨h.user, h.favstreams, ?_⟩
    intro p hp
    obtain rfl := Option.some.inj hp
    exact anySelected_put_false (h.marks o ho) name

theorem Scope.SignedOut.unfollowed {s : Scope} (h : s.SignedOut) (name : String) :
    (unfollowCallback name s).scope.SignedOut := by
  cases ho : s.favFilter with
  | none =>
    simp only [unfollowCallback, ho]
    exact h
  | some o =>
    simp only [unfollowCallback, ho]
    refine ⟨h.user, h.favstreams, ?_⟩
    intro p hp
    obtain rfl := Option.some.inj hp
    exact anySelected_delete (h.marks o ho) name

namespace Session

theorem signedOut_deliver {s : Session} (h : s.loggedOut = true → s.page.SignedOut)
    {answer : SessionAnswer} (hok : s.Clean (.deliver answer))
    (hl : (s.loggedOut || answer = .logout) = true) :
    (sessionCallback answer s.page).scope.SignedOut := by
  cases answer with
  | logout =>
    refine ⟨?_, rfl, hok⟩
    intro u hu
    cases hu
  | user user =>
    have hout : s.loggedOut = true := by simpa using hl
    obtain ⟨_, hf, hm⟩ := h hout
    refine ⟨?_, hf, hm⟩
    intro u hu
    obtain rfl := Option.some.inj hu
    exact hok hout
  | nullFavorites =>
    have hout : s.loggedOut = true := by simpa using hl
    exact h hout
  | account answer =>
    have hout : s.loggedOut = true := by simpa using hl
    cases answer with
    | followed name => exact (h hout).followed name (hok hout)
    | unfollowed name => exact (h hout).unfollowed name
    | favorites favstreams =>
      have hno : s.loggedOut = false := hok
      simp [hno] at hout

theorem signedOut_step {s t : Session} {e : SessionEvent}
    (h : s.loggedOut = true → s.page.SignedOut) (hok : s.Clean e) (ht : s.step e = some t) :
    t.loggedOut = true → t.page.SignedOut := by
  cases e with
  | refresh =>
    simp only [step, Option.some.injEq] at ht
    exact ht ▸ h
  | clickFav =>
    simp only [step, Option.ite_none_right_eq_some, Option.some.injEq] at ht
    obtain ⟨hs, rfl⟩ := ht
    intro hl
    simp [(h hl).favstreams] at hs
  | clickFollow name =>
    simp only [step, Option.ite_none_right_eq_some, Option.some.injEq] at ht
    obtain ⟨_, rfl⟩ := ht
    exact h
  | clickUnfollow name =>
    simp only [step, Option.ite_none_right_eq_some, Option.some.injEq] at ht
    obtain ⟨_, rfl⟩ := ht
    exact h
  | logout =>
    simp only [step, Option.ite_none_right_eq_some, Option.some.injEq] at ht
    obtain ⟨_, rfl⟩ := ht
    exact h
  | serve call answer =>
    simp only [step, Option.ite_none_right_eq_some, Option.some.injEq] at ht
    obtain ⟨_, rfl⟩ := ht
    exact h
  | deliver answer =>
    simp only [step, Option.ite_none_right_eq_some, Option.some.injEq] at ht
    obtain ⟨_, rfl⟩ := ht
    exact signedOut_deliver h hok
  | streams answer =>
    simp only [step, Option.some.injEq] at ht
    subst ht
    intro hl
    exact (h hl).of_sameAccount (Scope.sameAccount_streamsCallback answer s.page)
  | refreshStreams answer =>
    simp only [step, Option.some.injEq] at ht
    subst ht
    intro hl
    exact (h hl).of_sameAccount (Scope.sameAccount_refreshStreamsCallback answer s.page)

end Session

/-- In a clean run the page keeps nothing of the account once it has processed the logout. -/
theorem clean_logout_leaves_nothing {s : Session}
    (h : Runs.Guarded Session.step Session.Clean .start s) (hl : s.loggedOut = true) :
    (∀ u, s.page.user = some u → u.named = false) ∧ s.page.favstreams = none ∧
      ∀ x, accepts (filterfav s.page x) = true := by
  have hs : s.loggedOut = true → s.page.SignedOut :=
    Runs.Guarded.invariant (I := fun s => s.loggedOut = true → s.page.SignedOut)
      (fun hl => by cases hl) (fun _ _ _ hi hok ht => Session.signedOut_step hi hok ht) h
  obtain ⟨hu, hf, hm⟩ := hs hl
  exact ⟨hu, hf, accepts_filterfav hm⟩

/-- With a mark set the filter turns some record down. -/
theorem not_accepts_filterfav {s : Scope} {o : JsObject} (ho : s.favFilter = some o)
    (h : o.anySelected = true) : ¬ ∀ x, accepts (filterfav s x) = true := by
  intro hall
  obtain ⟨k, hk⟩ := Infinite.exists_notMem_finset (o.keys ++ objectPrototype).toFinset
  rw [List.mem_toFinset, List.mem_append, not_or, JsObject.mem_keys,
    Option.not_isSome_iff_eq_none] at hk
  have hget : o.get k = none := JsObject.get_eq_none.mpr hk
  have hx := hall ⟨.undefined, .undefined, .undefined, .undefined, .undefined,
    .val ⟨k, .undefined⟩, .undefined⟩
  simp [filterfav, ho, JsObject.select_eq, h, JsField.deref, Except.map, hget, accepts] at hx

theorem anySelected_put_true (o : JsObject) {k : String} (hk : k ≠ "__proto__") :
    (o.put k (.bool true)).anySelected = true := by
  rw [JsObject.anySelected_iff]
  exact ⟨k, .bool true, by rw [JsObject.owned_put, if_pos ⟨rfl, hk⟩], rfl⟩

/-- The condition leaves nothing out: any other answer leaves something of the account. No
follow link is made for `__proto__`. -/
theorem unclean_answer_leaves_account {s t : Session} {answer : SessionAnswer}
    (hok : ¬ s.Clean (.deliver answer)) (hproto : answer ≠ .account (.followed "__proto__"))
    (ht : s.step (.deliver answer) = some t) :
    t.loggedOut = true ∧ ¬ ((∀ u, t.page.user = some u → u.named = false) ∧
      t.page.favstreams = none ∧ ∀ x, accepts (filterfav t.page x) = true) := by
  simp only [Session.step, Option.ite_none_right_eq_some, Option.some.injEq] at ht
  obtain ⟨_, rfl⟩ := ht
  cases answer with
  | logout =>
    simp only [Session.Clean, not_forall, Bool.not_eq_false] at hok
    obtain ⟨o, ho, hmark⟩ := hok
    exact ⟨by simp, fun hleft => not_accepts_filterfav (s := logoutCallback s.page) ho hmark hleft.2.2⟩
  | nullFavorites => exact absurd trivial hok
  | user user =>
    simp only [Session.Clean, Classical.not_imp, Bool.not_eq_false] at hok
    obtain ⟨hout, hnamed⟩ := hok
    refine ⟨by simp [hout], fun hleft => ?_⟩
    rw [hleft.1 user rfl] at hnamed
    cases hnamed
  | account answer =>
    cases answer with
    | followed name =>
      simp only [Session.Clean, Classical.not_imp] at hok
      obtain ⟨hout, hbox, hmap⟩ := hok
      obtain ⟨o, ho⟩ := Option.ne_none_iff_exists'.mp hmap
      have hname : name ≠ "__proto__" := fun he => hproto (he ▸ rfl)
      have hmark := anySelected_put_true o hname
      have hfollow : (followCallback name s.page).scope.favFilter =
          some (o.put name (.bool true)) := by
        rw [favFilter_followCallback, ho, hbox]
        rfl
      exact ⟨by simp [hout], fun hleft => not_accepts_filterfav hfollow hmark hleft.2.2⟩
    | unfollowed name => exact absurd trivial hok
    | favorites favstreams =>
      have hout : s.loggedOut = true := by simpa [Session.Clean] using hok
      refine ⟨by simp [hout], fun hleft => ?_⟩
      cases hleft.2.1

def dyrus : User := ⟨.val "dyrus"⟩

/-- Signed in, with the answer to the first user query processed. -/
def signedIn : Session := ⟨userCallback dyrus .start, true, false, [.request (.account .favorites)]⟩

/-- Signed out, with the favourites query handled and answered after the cookie was deleted. -/
def signedOut : Session := ⟨logoutCallback signedIn.page, false, true, []⟩

theorem clean_logout_leaves_nothing_dyrus :
    signedOut.loggedOut = true ∧ (∀ u, signedOut.page.user = some u → u.named = false) ∧
      signedOut.page.favstreams = none ∧
      ∀ x, accepts (filterfav signedOut.page x) = true := by
  refine ⟨rfl, clean_logout_leaves_nothing ?_ rfl⟩
  refine .tail (e := .deliver .nullFavorites) (.tail
    (e := .serve (.account .favorites) .nullFavorites) (.tail (e := .deliver .logout) (.tail
    (e := .serve .logout .logout) (.tail (e := .logout) (.tail (e := .deliver (.user dyrus)) (.tail
    (e := .serve .user (.user dyrus)) .refl trivial rfl) ?_ rfl) trivial rfl) trivial rfl) ?_ rfl)
    trivial rfl) trivial rfl
  · intro hl
    cases hl
  · intro o ho
    cases ho

/-- The favourites that the server has served before the logout define `favstreams` again when
they come in after it. -/
theorem late_favorites_survive_logout :
    ¬ ∀ s, Runs.Reaches Session.step .start s → s.loggedOut = true →
      (∀ u, s.page.user = some u → u.named = false) ∧ s.page.favstreams = none ∧
        ∀ x, accepts (filterfav s.page x) = true := by
  intro h
  let favstreams : List Favorite := [⟨⟨"dyrus", .val "en"⟩⟩]
  have hrun : Runs.run Session.step .start
      [.serve .user (.user dyrus), .serve (.account .favorites) (.account (.favorites favstreams)),
        .deliver (.user dyrus), .logout, .serve .logout .logout, .deliver .logout,
        .deliver (.account (.favorites favstreams))] =
      some ⟨favoritesCallback favstreams (logoutCallback signedIn.page), false, true, []⟩ := rfl
  obtain ⟨_, hf, _⟩ := h _ (Runs.reaches_of_run hrun) rfl
  cases hf

end LolStreams
