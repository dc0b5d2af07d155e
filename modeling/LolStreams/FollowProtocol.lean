import LolStreams.Favorites
import LolStreams.Runs

/-! The page, the Sinatra server and Twitch exchanging follow, unfollow and favourites
messages. Each may be processed at any time and in any order; the set of live channels is
fixed and nobody else changes what Twitch records. -/
namespace LolStreams

inductive Call
  | follow (name : String)
  | unfollow (name : String)
  | favorites
  deriving DecidableEq, Repr

inductive Answer
  | followed (name : String)
  | unfollowed (name : String)
  | favorites (favstreams : List Favorite)
  deriving DecidableEq, Repr

/-- A message between the page and the server or between the server and Twitch. What Twitch
replies says whether it accepted the call; what the server answers does not, since the value
of both routes is a response object, which Sinatra turns into a 200 with an empty body. -/
inductive Message
  | request (call : Call)
  | forwarded (call : Call)
  | replied (accepted : Bool) (answer : Answer)
  | answered (answer : Answer)
  deriving DecidableEq, Repr

/-- Fields that the expression parser of the page refuses to read from any object. -/
def disallowedFields : List String :=
  ["__defineGetter__", "__defineSetter__", "__lookupGetter__", "__lookupSetter__", "__proto__"]

/-- `fav_filter[name]` in the template. `Object` itself is an unsafe value. -/
def readFav (s : Scope) (name : String) : Except JsError (Option Value) :=
  if name ∈ disallowedFields then .error .typeError
  else
    match s.favFilter with
    | none => .ok none
    | some o =>
      match o.get name with
      | some (.builtin "constructor") => .error .typeError
      | v => .ok v

/-- `ng-if="fav_filter[stream.channel.name] == undefined"` -/
def offersFollow (s : Scope) (name : String) : Bool :=
  match readFav s name with
  | .ok none => true
  | _ => false

/-- `ng-if="fav_filter[stream.channel.name] !== undefined"` -/
def offersUnfollow (s : Scope) (name : String) : Bool :=
  match readFav s name with
  | .ok (some _) => true
  | _ => false

/-- What Twitch records after a follow or unfollow call. -/
def record (call : Call) (accepted : Bool) (twitch : Finset String) : Finset String :=
  match call, accepted with
  | .follow name, true => insert name twitch
  | .unfollow name, true => twitch.erase name
  | _, _ => twitch

/-- The answer to a call, given the live channels and the follows on record. -/
def reply (live : List Channel) (twitch : Finset String) : Call → Answer
  | .follow name => .followed name
  | .unfollow name => .unfollowed name
  | .favorites => .favorites ((live.filter fun c => c.name ∈ twitch).map Favorite.mk)

def answerCallback (answer : Answer) (s : Scope) : Outcome :=
  match answer with
  | .followed name => followCallback name s
  | .unfollowed name => unfollowCallback name s
  | .favorites favstreams => .done (favoritesCallback favstreams s)

structure Protocol where
  page : Scope
  twitch : Finset String
  net : List Message

inductive ProtocolEvent
  | clickFollow (name : String)
  | clickUnfollow (name : String)
  | query
  | forward (call : Call)
  | serve (call : Call) (accepted : Bool)
  | relay (accepted : Bool) (answer : Answer)
  | deliver (answer : Answer)

namespace Protocol

/-- The page has just been loaded, and its favourites query is on its way. -/
def start (twitch : Finset String) : Protocol := ⟨.start, twitch, [.request .favorites]⟩

def send (p : Protocol) (m : Message) : Protocol := { p with net := m :: p.net }

/-- Replace a message in flight. -/
def pass (p : Protocol) (m m' : Message) : Protocol := { p with net := m' :: p.net.erase m }

def step (live : List Channel) (p : Protocol) : ProtocolEvent → Option Protocol
  | .clickFollow name =>
    if offersFollow p.page name then some (p.send (.request (.follow name))) else none
  | .clickUnfollow name =>
    if offersUnfollow p.page name then some (p.send (.request (.unfollow name))) else none
  | .query => some (p.send (.request .favorites))
  | .forward call =>
    if .request call ∈ p.net then some (p.pass (.request call) (.forwarded call)) else none
  | .serve call accepted =>
    if .forwarded call ∈ p.net then
      some { p.pass (.forwarded call) (.replied accepted (reply live p.twitch call)) with
        twitch := record call accepted p.twitch }
    else none
  | .relay accepted answer =>
    if .replied accepted answer ∈ p.net then
      some (p.pass (.replied accepted answer) (.answered answer))
    else none
  | .deliver answer =>
    if .answered answer ∈ p.net then
      some { p with
        page := (answerCallback answer p.page).scope
        net := p.net.erase (.answered answer) }
    else none

end Protocol

/-! ### What a message says about a channel -/

/-- The status of a channel that the page takes from an answer. -/
def Answer.status (name : String) : Answer → Option Bool
  | followed n => if n = name then some true else none
  | unfollowed n => if n = name then some false else none
  | favorites favstreams => some (name ∈ names favstreams)

/-- The status that the answer to a call will bring; a query brings what is on record. -/
def Call.status (twitch : Finset String) (name : String) : Call → Option Bool
  | follow n => if n = name then some true else none
  | unfollow n => if n = name then some false else none
  | favorites => some (name ∈ twitch)

def Message.status (twitch : Finset String) (name : String) : Message → Option Bool
  | request call => call.status twitch name
  | forwarded call => call.status twitch name
  | replied _ answer => answer.status name
  | answered answer => answer.status name

/-- Something in flight will tell the page what Twitch has on record for a channel. -/
def Corrected (net : List Message) (twitch : Finset String) (name : String) : Prop :=
  ∃ m ∈ net, m.status twitch name = some (decide (name ∈ twitch))

/-- The follow and unfollow callbacks need the map. -/
def Answer.applies (s : Scope) : Answer → Prop
  | favorites _ => True
  | _ => s.favFilter.isSome

/-- An answer with a status that is not the one on record is processed only while something
else in flight still brings that one. -/
def Protocol.Supervised (live : List Channel) (p : Protocol) : ProtocolEvent → Prop
  | .deliver answer =>
    answer.applies p.page → ∀ c ∈ live, c.name ∉ objectPrototype →
      answer.status c.name = some (decide (c.name ∉ p.twitch)) →
      Corrected (p.net.erase (.answered answer)) p.twitch c.name
  | _ => True

namespace Corrected

variable {net : List Message} {twitch : Finset String} {name : String}

theorem cons (h : Corrected net twitch name) (m : Message) : Corrected (m :: net) twitch name := by
  obtain ⟨m', hm', hs⟩ := h
  exact ⟨m', List.mem_cons_of_mem _ hm', hs⟩

/-- A message that takes over what the replaced one said keeps the correction. -/
theorem replace (h : Corrected net twitch name) {m m' : Message}
    (hm : m.status twitch name = some (decide (name ∈ twitch)) →
      m'.status twitch name = some (decide (name ∈ twitch))) :
    Corrected (m' :: net.erase m) twitch name := by
  obtain ⟨n, hn, hs⟩ := h
  by_cases he : n = m
  · subst he
    exact ⟨m', by simp, hm hs⟩
  · exact ⟨n, List.mem_cons_of_mem _ ((List.mem_erase_of_ne he).mpr hn), hs⟩

theorem of_erase {m : Message} (h : Corrected net twitch name)
    (hm : m.status twitch name ≠ some (decide (name ∈ twitch))) :
    Corrected (net.erase m) twitch name := by
  obtain ⟨n, hn, hs⟩ := h
  have he : n ≠ m := fun he => hm (he ▸ hs)
  exact ⟨n, (List.mem_erase_of_ne he).mpr hn, hs⟩

/-- What is said about a channel depends on its own record only. -/
theorem congr {twitch' : Finset String} (h : Corrected net twitch name)
    (he : name ∈ twitch' ↔ name ∈ twitch) : Corrected net twitch' name := by
  obtain ⟨m, hm, hs⟩ := h
  refine ⟨m, hm, ?_⟩
  rw [decide_eq_decide.mpr he, ← hs]
  rcases m with call | call | ⟨_, answer⟩ | answer
  · cases call <;> simp [Message.status, Call.status, he]
  · cases call <;> simp [Message.status, Call.status, he]
  · rfl
  · rfl

end Corrected

/-! ### The page -/

theorem mem_keys_put {o : JsObject} {k : String} {v : Value} {name : String}
    (hn : name ∉ objectPrototype) : name ∈ (o.put k v).keys ↔ name = k ∨ name ∈ o.keys := by
  have hp : name ≠ "__proto__" := fun h => hn (h ▸ proto_mem_objectPrototype)
  rw [JsObject.mem_keys, JsObject.mem_keys, JsObject.owned_put]
  by_cases hk : name = k
  · subst hk
    simp [hp]
  · simp [hk]

theorem mem_keys_delete {o : JsObject} {k name : String} :
    name ∈ (o.delete k).keys ↔ name ≠ k ∧ name ∈ o.keys := by
  rw [JsObject.mem_keys, JsObject.mem_keys, JsObject.owned_delete]
  by_cases hk : name = k <;> simp [hk]

/-- After an answer a channel has a mark when the answer says so, or had one before if the
answer says nothing about it. -/
theorem mem_keys_answered {answer : Answer} {s : Scope} {o' : JsObject}
    (h : (answerCallback answer s).scope.favFilter = some o') {name : String}
    (hn : name ∉ objectPrototype) :
    answer.applies s ∧ (∃ b, answer.status name = some b ∧ (name ∈ o'.keys ↔ b = true)) ∨
      answer.status name = none ∧ ∃ o, s.favFilter = some o ∧ (name ∈ o'.keys ↔ name ∈ o.keys) := by
  cases answer with
  | followed n =>
    rw [answerCallback, favFilter_followCallback, Option.map_eq_some_iff] at h
    obtain ⟨o, ho, rfl⟩ := h
    have happ : (Answer.followed n).applies s := by simp [Answer.applies, ho]
    by_cases he : n = name
    · have hs : (Answer.followed n).status name = some true := by simp [Answer.status, he]
      have hk : name ∈ (o.put n (.bool s.favBox)).keys := by simp [mem_keys_put hn, he]
      exact .inl ⟨happ, true, hs, iff_of_true hk rfl⟩
    · have hs : (Answer.followed n).status name = none := by simp [Answer.status, he]
      have hk : name ∈ (o.put n (.bool s.favBox)).keys ↔ name ∈ o.keys := by
        simp [mem_keys_put hn, Ne.symm he]
      exact .inr ⟨hs, o, ho, hk⟩
  | unfollowed n =>
    rw [answerCallback, favFilter_unfollowCallback, Option.map_eq_some_iff] at h
    obtain ⟨o, ho, rfl⟩ := h
    have happ : (Answer.unfollowed n).applies s := by simp [Answer.applies, ho]
    by_cases he : n = name
    · have hs : (Answer.unfollowed n).status name = some false := by simp [Answer.status, he]
      have hk : name ∉ (o.delete n).keys := by simp [mem_keys_delete, he]
      exact .inl ⟨happ, false, hs, iff_of_false hk (by simp)⟩
    · have hs : (Answer.unfollowed n).status name = none := by simp [Answer.status, he]
      have hk : name ∈ (o.delete n).keys ↔ name ∈ o.keys := by
        simp [mem_keys_delete, Ne.symm he]
      exact .inr ⟨hs, o, ho, hk⟩
  | favorites favstreams =>
    have hp : name ≠ "__proto__" := fun h => hn (h ▸ proto_mem_objectPrototype)
    simp only [answerCallback, favoritesCallback, Outcome.scope, Option.some.injEq] at h
    subst h
    refine .inl ⟨trivial, _, rfl, ?_⟩
    simp [mem_keys_listed, hp]

/-- Marks are flags, except that a favourites answer may find something inherited under a
name of `Object.prototype`. -/
def FlagMarks (o : JsObject) : Prop :=
  ∀ name, name ∉ objectPrototype → ∀ v, o.owned name = some v → ∃ b, v = .bool b

theorem flagMarks_answered {answer : Answer} {s : Scope}
    (hs : ∀ o, s.favFilter = some o → FlagMarks o) {o' : JsObject}
    (h : (answerCallback answer s).scope.favFilter = some o') : FlagMarks o' := by
  intro name hn v hv
  cases answer with
  | followed n =>
    rw [answerCallback, favFilter_followCallback, Option.map_eq_some_iff] at h
    obtain ⟨o, ho, rfl⟩ := h
    rw [JsObject.owned_put] at hv
    split_ifs at hv
    · exact ⟨_, (Option.some.inj hv).symm⟩
    · exact hs o ho name hn v hv
  | unfollowed n =>
    rw [answerCallback, favFilter_unfollowCallback, Option.map_eq_some_iff] at h
    obtain ⟨o, ho, rfl⟩ := h
    rw [JsObject.owned_delete] at hv
    split_ifs at hv
    exact hs o ho name hn v hv
  | favorites favstreams =>
    simp only [answerCallback, favoritesCallback, Outcome.scope, Option.some.injEq] at h
    subst h
    exact ⟨false, owned_listed_plain hn (by simp) hv⟩

/-- Away from the inherited names the page offers Unfollow for the marked channels. -/
theorem offersUnfollow_iff {s : Scope} {o : JsObject} (ho : s.favFilter = some o)
    (hf : FlagMarks o) {name : String} (hn : name ∉ objectPrototype) :
    offersUnfollow s name = true ↔ name ∈ o.keys := by
  have hd : name ∉ disallowedFields := by
    intro h
    apply hn
    simp only [disallowedFields, List.mem_cons, List.not_mem_nil, or_false] at h
    rcases h with rfl | rfl | rfl | rfl | rfl <;> decide
  rw [JsObject.mem_keys]
  simp only [offersUnfollow, readFav, if_neg hd, ho, JsObject.get_eq_owned hn]
  cases hv : o.owned name with
  | none => simp
  | some v =>
    obtain ⟨b, rfl⟩ := hf name hn v hv
    simp

/-! ### Convergence -/

namespace Protocol

variable {live : List Channel}

/-- The page and Twitch agree on every live channel, or something in flight corrects the
page. -/
structure Tracked (live : List Channel) (p : Protocol) : Prop where
  flags : ∀ o, p.page.favFilter = some o → FlagMarks o
  agree : ∀ o, p.page.favFilter = some o → ∀ c ∈ live, c.name ∉ objectPrototype →
    (c.name ∈ o.keys ↔ c.name ∈ p.twitch) ∨ Corrected p.net p.twitch c.name

theorem tracked_start (twitch : Finset String) : Tracked live (start twitch) := by
  constructor
  · intro o ho
    cases ho
  · intro o ho
    cases ho

theorem Tracked.send {p : Protocol} (h : Tracked live p) (m : Message) :
    Tracked live (p.send m) := by
  refine ⟨h.flags, ?_⟩
  intro o ho c hc hn
  rcases h.agree o ho c hc hn with ha | ha
  · exact .inl ha
  · exact .inr (ha.cons m)

/-- A message may be passed on if what it says about the live channels stays the same. -/
theorem Tracked.pass {p : Protocol} (h : Tracked live p) {m m' : Message}
    (hm : ∀ name, m.status p.twitch name = m'.status p.twitch name) :
    Tracked live (p.pass m m') := by
  refine ⟨h.flags, ?_⟩
  intro o ho c hc hn
  rcases h.agree o ho c hc hn with ha | ha
  · exact .inl ha
  · exact .inr (ha.replace fun hs => (hm c.name).symm.trans hs)

theorem mem_names_live {twitch : Finset String} {c : Channel} (hc : c ∈ live) :
    c.name ∈ names ((live.filter fun c => c.name ∈ twitch).map Favorite.mk) ↔
      c.name ∈ twitch := by
  simp only [names, List.map_map, List.mem_map, List.mem_filter, Function.comp_apply,
    decide_eq_true_eq]
  constructor
  · rintro ⟨c', ⟨_, ht⟩, he⟩
    exact he ▸ ht
  · intro ht
    exact ⟨c, ⟨hc, ht⟩, rfl⟩

/-- The answer of Twitch brings what the call was going to bring. -/
theorem status_reply (twitch : Finset String) (call : Call) {c : Channel} (hc : c ∈ live) :
    (reply live twitch call).status c.name = call.status twitch c.name := by
  cases call with
  | follow n => rfl
  | unfollow n => rfl
  | favorites => simp only [reply, Answer.status, Call.status, mem_names_live hc]

/-- A call changes the record of a channel only into what its answer says. -/
theorem record_changes {call : Call} {accepted : Bool} {twitch : Finset String} {name : String}
    (h : ¬ (name ∈ record call accepted twitch ↔ name ∈ twitch)) :
    call.status (record call accepted twitch) name =
      some (decide (name ∈ record call accepted twitch)) := by
  cases call with
  | follow n =>
    cases accepted with
    | false => simp [record] at h
    | true =>
      by_cases he : n = name
      · simp [record, Call.status, he]
      · simp [record, Ne.symm he] at h
  | unfollow n =>
    cases accepted with
    | false => simp [record] at h
    | true =>
      by_cases he : n = name
      · simp [record, Call.status, he]
      · simp [record, Ne.symm he] at h
  | favorites => rfl

theorem Tracked.serve {p : Protocol} (h : Tracked live p) (call : Call) (accepted : Bool) :
    Tracked live { p.pass (.forwarded call) (.replied accepted (reply live p.twitch call)) with
      twitch := record call accepted p.twitch } := by
  refine ⟨h.flags, ?_⟩
  intro o ho c hc hn
  have hreply := status_reply p.twitch call hc
  by_cases he : c.name ∈ record call accepted p.twitch ↔ c.name ∈ p.twitch
  · rcases h.agree o ho c hc hn with ha | ha
    · exact .inl (ha.trans he.symm)
    · refine .inr (Corrected.congr ?_ he)
      exact ha.replace fun hs => hreply.trans hs
  · refine .inr ⟨_, List.mem_cons_self, ?_⟩
    rw [← record_changes he]
    show (reply live p.twitch call).status c.name = _
    cases call with
    | follow n => rfl
    | unfollow n => rfl
    | favorites => simp [record] at he

theorem Tracked.deliver {p : Protocol} (h : Tracked live p) {answer : Answer}
    (hok : p.Supervised live (.deliver answer)) :
    Tracked live { p with
      page := (answerCallback answer p.page).scope
      net := p.net.erase (.answered answer) } := by
  constructor
  · intro o ho
    exact flagMarks_answered h.flags ho
  · intro o ho c hc hn
    rcases mem_keys_answered ho hn with ⟨happ, b, hb, hk⟩ | ⟨hs, o₀, ho₀, hk⟩
    · by_cases he : b = decide (c.name ∈ p.twitch)
      · left
        rw [hk, he, decide_eq_true_eq]
      · right
        apply hok happ c hc hn
        rw [hb, decide_not]
        exact congrArg some (Bool.eq_not.mpr he)
    · rcases h.agree o₀ ho₀ c hc hn with ha | ha
      · exact .inl (hk.trans ha)
      · refine .inr (ha.of_erase ?_)
        simp [Message.status, hs]

theorem tracked_step {p q : Protocol} {e : ProtocolEvent} (h : Tracked live p)
    (hok : p.Supervised live e) (hq : p.step live e = some q) : Tracked live q := by
  cases e with
  | clickFollow name =>
    simp only [step, Option.ite_none_right_eq_some, Option.some.injEq] at hq
    obtain ⟨_, rfl⟩ := hq
    exact h.send _
  | clickUnfollow name =>
    simp only [step, Option.ite_none_right_eq_some, Option.some.injEq] at hq
    obtain ⟨_, rfl⟩ := hq
    exact h.send _
  | query =>
    simp only [step, Option.some.injEq] at hq
    obtain rfl := hq
    exact h.send _
  | forward call =>
    simp only [step, Option.ite_none_right_eq_some, Option.some.injEq] at hq
    obtain ⟨_, rfl⟩ := hq
    exact h.pass fun name => rfl
  | serve call accepted =>
    simp only [step, Option.ite_none_right_eq_some, Option.some.injEq] at hq
    obtain ⟨_, rfl⟩ := hq
    exact h.serve call accepted
  | relay accepted answer =>
    simp only [step, Option.ite_none_right_eq_some, Option.some.injEq] at hq
    obtain ⟨_, rfl⟩ := hq
    exact h.pass fun name => rfl
  | deliver answer =>
    simp only [step, Option.ite_none_right_eq_some, Option.some.injEq] at hq
    obtain ⟨_, rfl⟩ := hq
    exact h.deliver hok

end Protocol

/-- In a supervised run, once nothing is in flight and a favourites answer has been
processed, the page offers Unfollow exactly for the live channels that Twitch has on record. -/
theorem supervised_run_converges {live : List Channel} {twitch : Finset String} {p : Protocol}
    (h : Runs.Guarded (Protocol.step live) (Protocol.Supervised live) (.start twitch) p)
    (hnet : p.net = []) (hfav : p.page.favFilter.isSome) (c : Channel) (hc : c ∈ live)
    (hn : c.name ∉ objectPrototype) :
    offersUnfollow p.page c.name = true ↔ c.name ∈ p.twitch := by
  have ht : Protocol.Tracked live p := Runs.Guarded.invariant (Protocol.tracked_start twitch)
    (fun _ _ _ hi hok hq => Protocol.tracked_step hi hok hq) h
  obtain ⟨o, ho⟩ := Option.isSome_iff_exists.mp hfav
  rw [offersUnfollow_iff ho (ht.flags o ho) hn]
  rcases ht.agree o ho c hc hn with ha | ⟨m, hm, _⟩
  · exact ha
  · simp [hnet] at hm

def liveDyrus : List Channel := [⟨"dyrus", .val "en"⟩]

/-- The page of somebody who follows nobody, after the first favourites answer. -/
def pageLoaded : Protocol := ⟨favoritesCallback [] .start, ∅, []⟩

/-- A query has been answered before a follow was recorded, and both answers are on their way. -/
def answersCrossed : Protocol :=
  ⟨pageLoaded.page, {"dyrus"}, [.answered (.followed "dyrus"), .answered (.favorites [])]⟩

/-- The outdated answer has been processed first. -/
def staleCorrected : Protocol :=
  ⟨(followCallback "dyrus" (favoritesCallback [] pageLoaded.page)).scope, {"dyrus"}, []⟩

theorem supervised_run_converges_dyrus :
    staleCorrected.net = [] ∧
      (offersUnfollow staleCorrected.page "dyrus" = true ↔ "dyrus" ∈ staleCorrected.twitch) := by
  have hasked : Runs.Guarded (Protocol.step liveDyrus) (Protocol.Supervised liveDyrus)
      (.start ∅) ⟨.start, ∅, [.answered (.favorites [])]⟩ :=
    Runs.guarded_of_run [.forward .favorites, .serve .favorites true,
      .relay true (.favorites [])] (by simp [Protocol.Supervised]) rfl
  have hloaded : Runs.Guarded (Protocol.step liveDyrus) (Protocol.Supervised liveDyrus)
      (.start ∅) pageLoaded := by
    refine hasked.tail (e := .deliver (.favorites [])) ?_ rfl
    intro _ c _ _ hs
    exact absurd hs (by simp [Answer.status, names])
  have hcrossed : Runs.Guarded (Protocol.step liveDyrus) (Protocol.Supervised liveDyrus)
      pageLoaded answersCrossed :=
    Runs.guarded_of_run [.clickFollow "dyrus", .query, .forward .favorites,
      .serve .favorites true, .relay true (.favorites []), .forward (.follow "dyrus"),
      .serve (.follow "dyrus") true, .relay true (.followed "dyrus")]
      (by simp [Protocol.Supervised]) rfl
  have hrun : Runs.Guarded (Protocol.step liveDyrus) (Protocol.Supervised liveDyrus)
      (.start ∅) staleCorrected := by
    refine ((hloaded.trans hcrossed).tail (e := .deliver (.favorites [])) ?_ rfl).tail
      (e := .deliver (.followed "dyrus")) ?_ rfl
    · intro _ c hc _ _
      obtain rfl := List.mem_singleton.mp hc
      exact ⟨.answered (.followed "dyrus"), by decide, rfl⟩
    · intro _ c hc _ hs
      obtain rfl := List.mem_singleton.mp hc
      exact absurd hs (by decide)
  exact ⟨rfl, supervised_run_converges hrun rfl rfl ⟨"dyrus", .val "en"⟩ (by decide) (by decide)⟩

/-- Twitch refuses a follow; the server drops the refusal and the page marks the channel. -/
theorem refused_follow_diverges :
    ¬ ∀ live twitch p, Runs.Reaches (Protocol.step live) (.start twitch) p → p.net = [] →
      p.page.favFilter.isSome → ∀ c ∈ live,
        (offersUnfollow p.page c.name = true ↔ c.name ∈ p.twitch) := by
  intro h
  have hrun : Runs.run (Protocol.step liveDyrus) (.start ∅)
      [.forward .favorites, .serve .favorites true, .relay true (.favorites []),
        .deliver (.favorites []), .clickFollow "dyrus", .forward (.follow "dyrus"),
        .serve (.follow "dyrus") false, .relay false (.followed "dyrus"),
        .deliver (.followed "dyrus")] =
      some ⟨(followCallback "dyrus" (favoritesCallback [] .start)).scope, ∅, []⟩ := rfl
  have hoffers := h _ _ _ (Runs.reaches_of_run hrun) rfl rfl ⟨"dyrus", .val "en"⟩ (by decide)
  exact absurd (hoffers.mp (by decide)) (by decide)

end LolStreams
