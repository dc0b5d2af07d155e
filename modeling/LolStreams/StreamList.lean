import LolStreams.Scope

/-! The two success callbacks of `Stream.query`. The one registered when the controller
starts creates the three dynamic filters; the one registered by `refresh_streams` inserts
new options and prunes those that no record carries any more. -/
namespace LolStreams

def forEachStream (f : Scope → Stream → Outcome) : Scope → List Stream → Outcome
  | s, [] => .done s
  | s, x :: xs => (f s x).andThen fun t => forEachStream f t xs

/-- One of the three `if` statements in the loop over the records. -/
def offerOption (write : JsObject → String → JsObject) (d : Dimension) (s : Scope)
    (stream : Stream) : Outcome :=
  match d.offers stream with
  | .error _ => .threw s
  | .ok false => .done s
  | .ok true =>
    match s.filter d, d.attr stream with
    | some o, .ok a => .done (s.setFilter d (write o a.key))
    | _, _ => .threw s

def offerOptions (write : JsObject → String → JsObject) (s : Scope) (stream : Stream) :
    Outcome :=
  ((offerOption write .champion s stream).andThen fun t =>
    offerOption write .lang t stream).andThen fun t => offerOption write .team t stream

def assignFalse (o : JsObject) (k : String) : JsObject := o.put k (.bool false)

/-- The refresh asks `o[k] == undefined` first, a read that sees inherited properties. -/
def assignIfUndefined (o : JsObject) (k : String) : JsObject :=
  if (o.get k).isNone then o.put k (.bool false) else o

/-- The callback of the query issued at controller start. -/
def streamsCallback (answer : List Stream) (s : Scope) : Outcome :=
  forEachStream (offerOptions assignFalse)
    { s with
      streams := some answer
      championFilter := some .empty
      langFilter := some .empty
      teamFilter := some .empty } answer

/-- The inner loop `key == $scope.streams[i].attr`, which stops at the first match. -/
def carried (d : Dimension) (key : String) : List Stream → Except JsError Bool
  | [] => .ok false
  | x :: xs =>
    match d.attr x with
    | .error e => .error e
    | .ok a => if a.eqString key then .ok true else carried d key xs

/-- The pruning loop over the keys still to be visited. Only the visited key is deleted,
so the others are met as they were listed. -/
def pruneKeys (d : Dimension) (streams : List Stream) : List String → Scope → Outcome
  | [], s => .done s
  | key :: keys, s =>
    match carried d key streams, s.filter d with
    | .ok true, _ => pruneKeys d streams keys s
    | .ok false, some o => pruneKeys d streams keys (s.setFilter d (o.delete key))
    | _, _ => .threw s

def prune (d : Dimension) (streams : List Stream) (s : Scope) : Outcome :=
  match s.filter d with
  | none => .done s
  | some o => pruneKeys d streams o.keys s

/-- The stream callback of `refresh_streams`. -/
def refreshStreamsCallback (answer : List Stream) (s : Scope) : Outcome :=
  (((forEachStream (offerOptions assignIfUndefined) { s with streams := some answer }
    answer).andThen (prune .champion answer)).andThen (prune .lang answer)).andThen
      (prune .team answer)

/-- A record with a channel and a streamer object. -/
def Stream.Complete (x : Stream) : Prop :=
  (∃ c, x.channel = .val c) ∧ ∃ t, x.streamer = .val t

/-- An answer whose records all have a channel and a streamer object. -/
structure StreamList where
  streams : List Stream
  complete : ∀ x ∈ streams, x.Complete

/-- A live record of the given channel, champion status and champion name. -/
def sampleStream (name champion championname : String) : Stream where
  champion := .val champion
  championname := .val championname
  rank := .val "GOLD"
  region := .val "NA"
  status := .val "In game."
  channel := .val ⟨name, .val "en"⟩
  streamer := .val ⟨.val "tsm", .val 1⟩

def sampleList (name champion championname : String) : StreamList where
  streams := [sampleStream name champion championname]
  complete := by
    intro x hx
    rw [List.mem_singleton.mp hx]
    exact ⟨⟨_, rfl⟩, _, rfl⟩

def StreamList.append (S T : StreamList) : StreamList where
  streams := S.streams ++ T.streams
  complete x hx := (List.mem_append.mp hx).elim (S.complete x) (T.complete x)

/-! ### What a list offers and what it carries -/

namespace Dimension

/-- The record passes the offer condition and its attribute names the property `k`. -/
def offersKey (d : Dimension) (k : String) (x : Stream) : Bool :=
  match d.offers x, d.attr x with
  | .ok true, .ok a => a.key = k
  | _, _ => false

/-- The attribute of the record is the string `k`. -/
def carriesKey (d : Dimension) (k : String) (x : Stream) : Bool :=
  match d.attr x with
  | .ok a => a.eqString k
  | .error _ => false

end Dimension

def Offers (d : Dimension) (streams : List Stream) (k : String) : Prop :=
  ∃ x ∈ streams, d.offersKey k x = true

def Carries (d : Dimension) (streams : List Stream) (k : String) : Prop :=
  ∃ x ∈ streams, d.carriesKey k x = true

instance (d : Dimension) (streams : List Stream) (k : String) : Decidable (Offers d streams k) :=
  inferInstanceAs (Decidable (∃ x ∈ streams, d.offersKey k x = true))

instance (d : Dimension) (streams : List Stream) (k : String) :
    Decidable (Carries d streams k) :=
  inferInstanceAs (Decidable (∃ x ∈ streams, d.carriesKey k x = true))

@[simp] theorem offers_nil (d : Dimension) (k : String) : ¬ Offers d [] k := by simp [Offers]

theorem offers_cons (d : Dimension) (x : Stream) (xs : List Stream) (k : String) :
    Offers d (x :: xs) k ↔ d.offersKey k x = true ∨ Offers d xs k := by simp [Offers]

theorem carries_cons (d : Dimension) (x : Stream) (xs : List Stream) (k : String) :
    Carries d (x :: xs) k ↔ d.carriesKey k x = true ∨ Carries d xs k := by simp [Carries]

/-- The attribute of a complete record can be read, and the offer condition evaluated. -/
theorem Stream.Complete.attr {x : Stream} (hx : x.Complete) (d : Dimension) :
    ∃ a, d.attr x = .ok a := by
  obtain ⟨⟨c, hc⟩, t, ht⟩ := hx
  cases d with
  | champion => exact ⟨_, rfl⟩
  | lang => exact ⟨c.broadcasterLanguage, by simp [Dimension.attr, hc, Except.map]⟩
  | team => exact ⟨t.team, by simp [Dimension.attr, ht, Except.map]⟩

theorem Stream.Complete.offers {x : Stream} (hx : x.Complete) (d : Dimension) :
    ∃ b, d.offers x = .ok b := by
  obtain ⟨⟨c, hc⟩, t, ht⟩ := hx
  cases d with
  | champion => exact ⟨_, rfl⟩
  | lang => simp [Dimension.offers, hc, Except.map]
  | team => simp [Dimension.offers, ht, Except.map]

/-! ### The insertion loop -/

/-- The effect of one record on the filter of one dimension. -/
def offerTo (write : JsObject → String → JsObject) (d : Dimension) (o : JsObject)
    (x : Stream) : JsObject :=
  match d.offers x, d.attr x with
  | .ok true, .ok a => write o a.key
  | _, _ => o

section Insertion

variable (write : JsObject → String → JsObject) {s : Scope} {f : Dimension → JsObject}

theorem offerOption_done {x : Stream} {d : Dimension} (hattr : ∃ a, d.attr x = .ok a)
    (hoffers : ∃ b, d.offers x = .ok b) (hs : ∀ d, s.filter d = some (f d)) :
    ∃ t, offerOption write d s x = .done t ∧ t.streams = s.streams ∧
      ∀ e, t.filter e = some (if e = d then offerTo write d (f d) x else f e) := by
  obtain ⟨a, ha⟩ := hattr
  obtain ⟨b, hb⟩ := hoffers
  cases b with
  | false =>
    have hskip : offerOption write d s x = .done s := by simp [offerOption, hb]
    refine ⟨s, hskip, rfl, ?_⟩
    intro e
    rw [hs e]
    split_ifs with he
    · simp [he, offerTo, hb]
    · rfl
  | true =>
    have hwrite : offerOption write d s x = .done (s.setFilter d (write (f d) a.key)) := by
      simp [offerOption, hb, ha, hs d]
    refine ⟨_, hwrite, Scope.streams_setFilter s d _, ?_⟩
    intro e
    rw [Scope.filter_setFilter]
    split_ifs with he
    · simp [offerTo, hb, ha]
    · exact hs e

theorem offerOptions_done {x : Stream} (hx : x.Complete) (hs : ∀ d, s.filter d = some (f d)) :
    ∃ t, offerOptions write s x = .done t ∧ t.streams = s.streams ∧
      ∀ d, t.filter d = some (offerTo write d (f d) x) := by
  obtain ⟨t₁, h₁, hl₁, hf₁⟩ :=
    offerOption_done write (hx.attr .champion) (hx.offers .champion) hs
  obtain ⟨t₂, h₂, hl₂, hf₂⟩ := offerOption_done write (hx.attr .lang) (hx.offers .lang) hf₁
  obtain ⟨t₃, h₃, hl₃, hf₃⟩ := offerOption_done write (hx.attr .team) (hx.offers .team) hf₂
  have hdone : offerOptions write s x = .done t₃ := by simp [offerOptions, h₁, h₂, h₃]
  refine ⟨t₃, hdone, hl₃.trans (hl₂.trans hl₁), ?_⟩
  intro d
  rw [hf₃ d]
  cases d <;> simp

/-- On complete records the loop runs through, each filter evolving on its own. -/
theorem forEachStream_offer {xs : List Stream} (hx : ∀ x ∈ xs, x.Complete)
    (hs : ∀ d, s.filter d = some (f d)) :
    ∃ t, forEachStream (offerOptions write) s xs = .done t ∧ t.streams = s.streams ∧
      ∀ d, t.filter d = some (xs.foldl (offerTo write d) (f d)) := by
  induction xs generalizing s f with
  | nil => exact ⟨s, rfl, rfl, hs⟩
  | cons x xs ih =>
    have hxs : ∀ y ∈ xs, y.Complete := fun y hy => hx y (List.mem_cons_of_mem _ hy)
    obtain ⟨t, ht, hl, hf⟩ := offerOptions_done write (hx x List.mem_cons_self) hs
    obtain ⟨u, hu, hl', hf'⟩ := ih hxs hf
    have hdone : forEachStream (offerOptions write) s (x :: xs) = .done u := by
      simp only [forEachStream, ht, Outcome.andThen_done, hu]
    exact ⟨u, hdone, hl'.trans hl, hf'⟩

end Insertion

theorem owned_offerTo_assignFalse (d : Dimension) (o : JsObject) (x : Stream) (k : String) :
    (offerTo assignFalse d o x).owned k =
      if d.offersKey k x = true ∧ k ≠ "__proto__" then some (.bool false) else o.owned k := by
  unfold offerTo Dimension.offersKey
  split
  · rename_i a ho ha
    simp only [assignFalse, JsObject.owned_put, decide_eq_true_eq]
    by_cases hk : k = a.key
    · simp [hk]
    · simp [hk, Ne.symm hk]
  · simp

theorem owned_offers_assignFalse (d : Dimension) (xs : List Stream) (o : JsObject) (k : String) :
    (xs.foldl (offerTo assignFalse d) o).owned k =
      if Offers d xs k ∧ k ≠ "__proto__" then some (.bool false) else o.owned k := by
  induction xs generalizing o with
  | nil => simp
  | cons x xs ih =>
    simp only [List.foldl_cons, ih, owned_offerTo_assignFalse, offers_cons]
    by_cases hk : k = "__proto__"
    · simp [hk]
    · by_cases h₁ : Offers d xs k <;> by_cases h₂ : d.offersKey k x = true <;> simp [h₁, h₂, hk]

theorem owned_offerTo_assignIfUndefined (d : Dimension) (o : JsObject) (x : Stream)
    (k : String) :
    (offerTo assignIfUndefined d o x).owned k =
      if o.owned k = none ∧ d.offersKey k x = true ∧ k ∉ objectPrototype then
        some (.bool false) else o.owned k := by
  unfold offerTo Dimension.offersKey
  split
  · rename_i a ho ha
    simp only [assignIfUndefined, Option.isNone_iff_eq_none, JsObject.get_eq_none,
      decide_eq_true_eq]
    by_cases hk : k = a.key
    · subst hk
      have hp : a.key ∉ objectPrototype → a.key ≠ "__proto__" :=
        fun h he => h (he ▸ proto_mem_objectPrototype)
      by_cases h : o.owned a.key = none ∧ a.key ∉ objectPrototype
      · simp [h, JsObject.owned_put, hp h.2]
      · have h' : ¬ (o.owned a.key = none ∧ a.key = a.key ∧ a.key ∉ objectPrototype) :=
          fun g => h ⟨g.1, g.2.2⟩
        rw [if_neg h, if_neg h']
    · have h' : ¬ (o.owned k = none ∧ a.key = k ∧ k ∉ objectPrototype) :=
        fun h => hk h.2.1.symm
      rw [if_neg h']
      split_ifs
      · rw [JsObject.owned_put, if_neg (fun h => hk h.1)]
      · rfl
  · simp

theorem owned_offers_assignIfUndefined (d : Dimension) (xs : List Stream) (o : JsObject)
    (k : String) :
    (xs.foldl (offerTo assignIfUndefined d) o).owned k =
      if o.owned k = none ∧ Offers d xs k ∧ k ∉ objectPrototype then some (.bool false)
        else o.owned k := by
  induction xs generalizing o with
  | nil => simp
  | cons x xs ih =>
    simp only [List.foldl_cons, ih, owned_offerTo_assignIfUndefined, offers_cons]
    by_cases hn : o.owned k = none
    · by_cases hk : k ∈ objectPrototype
      · simp [hn, hk]
      · by_cases h₁ : Offers d xs k <;> by_cases h₂ : d.offersKey k x = true <;>
          simp [h₁, h₂, hk, hn]
    · simp [hn]

/-! ### The pruning loop -/

theorem carried_eq {d : Dimension} {key : String} {xs : List Stream}
    (hx : ∀ x ∈ xs, x.Complete) : carried d key xs = .ok (decide (Carries d xs key)) := by
  induction xs with
  | nil => simp [carried, Carries]
  | cons x xs ih =>
    obtain ⟨a, ha⟩ := (hx x List.mem_cons_self).attr d
    have hi := ih fun y hy => hx y (List.mem_cons_of_mem _ hy)
    simp only [carried, ha, carries_cons, Dimension.carriesKey]
    by_cases h : a.eqString key = true <;> simp [h, hi]

def pruned (d : Dimension) (streams : List Stream) (o : JsObject) (k : String) : JsObject :=
  if Carries d streams k then o else o.delete k

theorem pruneKeys_done {d : Dimension} {xs : List Stream} (hx : ∀ x ∈ xs, x.Complete)
    (ks : List String) {s : Scope} {f : Dimension → JsObject}
    (hs : ∀ e, s.filter e = some (f e)) :
    ∃ t, pruneKeys d xs ks s = .done t ∧ t.streams = s.streams ∧
      ∀ e, t.filter e = some (if e = d then ks.foldl (pruned d xs) (f d) else f e) := by
  induction ks generalizing s f with
  | nil =>
    refine ⟨s, rfl, rfl, ?_⟩
    intro e
    rw [hs e]
    split_ifs with he
    · simp [he]
    · rfl
  | cons k ks ih =>
    by_cases hc : Carries d xs k
    · obtain ⟨t, ht, hl, hf⟩ := ih hs
      have hkeep : pruned d xs (f d) k = f d := if_pos hc
      have hdone : pruneKeys d xs (k :: ks) s = .done t := by
        simp only [pruneKeys, carried_eq hx, hc, decide_true, ht]
      refine ⟨t, hdone, hl, ?_⟩
      rw [List.foldl_cons, hkeep]
      exact hf
    · have hd : ∀ e, (s.setFilter d ((f d).delete k)).filter e =
          some (if e = d then (f d).delete k else f e) := by
        intro e
        rw [Scope.filter_setFilter]
        split_ifs
        · rfl
        · exact hs e
      obtain ⟨t, ht, hl, hf⟩ := ih hd
      have hdrop : pruned d xs (f d) k = (f d).delete k := if_neg hc
      have hdone : pruneKeys d xs (k :: ks) s = .done t := by
        simp only [pruneKeys, carried_eq hx, hc, decide_false, hs d, ht]
      refine ⟨t, hdone, hl.trans (Scope.streams_setFilter _ _ _), ?_⟩
      intro e
      rw [hf e, List.foldl_cons, hdrop, if_pos rfl]
      by_cases he : e = d
      · rw [if_pos he, if_pos he]
      · rw [if_neg he, if_neg he, if_neg he]

theorem owned_pruned (d : Dimension) (xs : List Stream) (ks : List String) (o : JsObject)
    (k : String) :
    (ks.foldl (pruned d xs) o).owned k =
      if k ∈ ks ∧ ¬ Carries d xs k then none else o.owned k := by
  induction ks generalizing o with
  | nil => simp
  | cons j ks ih =>
    rw [List.foldl_cons, ih]
    by_cases hk : k = j
    · subst hk
      by_cases hc : Carries d xs k <;> simp [pruned, hc]
    · by_cases hj : Carries d xs j <;> simp [pruned, hj, hk]

theorem prune_done {d : Dimension} {xs : List Stream} (hx : ∀ x ∈ xs, x.Complete)
    {s : Scope} {f : Dimension → JsObject} (hs : ∀ e, s.filter e = some (f e)) :
    ∃ t, prune d xs s = .done t ∧ t.streams = s.streams ∧
      ∀ e, ∃ o, t.filter e = some o ∧ ∀ k, o.owned k =
        if e = d ∧ ¬ Carries d xs k then none else (f e).owned k := by
  obtain ⟨t, ht, hl, hf⟩ := pruneKeys_done (d := d) hx (f d).keys hs
  have hdone : prune d xs s = .done t := by simp only [prune, hs d, ht]
  refine ⟨t, hdone, hl, ?_⟩
  intro e
  refine ⟨_, hf e, ?_⟩
  intro k
  by_cases he : e = d
  · subst he
    simp only [if_true, owned_pruned, JsObject.mem_keys, true_and]
    cases hk : (f e).owned k <;> simp
  · simp [he]

/-! ### What the callbacks compute -/

/-- The first answer: exactly the offered options exist, all unselected. -/
theorem streamsCallback_spec (S : StreamList) (s : Scope) :
    ∃ t, streamsCallback S.streams s = .done t ∧ t.streams = some S.streams ∧
      ∀ d, ∃ o, t.filter d = some o ∧ ∀ k, o.owned k =
        if Offers d S.streams k ∧ k ≠ "__proto__" then some (.bool false) else none := by
  have hs : ∀ d, Scope.filter { s with
      streams := some S.streams
      championFilter := some .empty
      langFilter := some .empty
      teamFilter := some .empty } d = some JsObject.empty := by
    intro d
    cases d <;> rfl
  obtain ⟨t, ht, hl, hf⟩ := forEachStream_offer assignFalse S.complete hs
  refine ⟨t, ht, hl, ?_⟩
  intro d
  exact ⟨_, hf d, fun k => owned_offers_assignFalse d S.streams .empty k⟩

/-- What a refresh leaves of the value `old` an option had. -/
def refreshedValue (d : Dimension) (streams : List Stream) (k : String) (old : Option Value) :
    Option Value :=
  if Carries d streams k then
    if old = none ∧ Offers d streams k ∧ k ∉ objectPrototype then some (.bool false) else old
  else none

/-- A refresh answer, once the filters exist: what is carried survives with its value, what
is offered and not yet readable appears unselected. -/
theorem refreshStreamsCallback_spec (S : StreamList) {s : Scope} {f : Dimension → JsObject}
    (hs : ∀ d, s.filter d = some (f d)) :
    ∃ t, refreshStreamsCallback S.streams s = .done t ∧ t.streams = some S.streams ∧
      ∀ d, ∃ o, t.filter d = some o ∧
        ∀ k, o.owned k = refreshedValue d S.streams k ((f d).owned k) := by
  have hs' : ∀ d, Scope.filter { s with streams := some S.streams } d = some (f d) := by
    intro d
    rw [Scope.filter_streams, hs d]
  obtain ⟨t₀, h₀, hl₀, hf₀⟩ := forEachStream_offer assignIfUndefined S.complete hs'
  obtain ⟨t₁, h₁, hl₁, hf₁⟩ := prune_done (d := .champion) S.complete hf₀
  choose f₁ hf₁ ho₁ using hf₁
  obtain ⟨t₂, h₂, hl₂, hf₂⟩ := prune_done (d := .lang) S.complete hf₁
  choose f₂ hf₂ ho₂ using hf₂
  obtain ⟨t₃, h₃, hl₃, hf₃⟩ := prune_done (d := .team) S.complete hf₂
  have hdone : refreshStreamsCallback S.streams s = .done t₃ := by
    simp only [refreshStreamsCallback, h₀, h₁, h₂, h₃, Outcome.andThen_done]
  have hl : t₃.streams = some S.streams := hl₃.trans (hl₂.trans (hl₁.trans hl₀))
  refine ⟨t₃, hdone, hl, ?_⟩
  intro d
  obtain ⟨o, ho, hk⟩ := hf₃ d
  refine ⟨o, ho, ?_⟩
  intro k
  rw [hk, ho₂, ho₁, owned_offers_assignIfUndefined, refreshedValue]
  by_cases hc : Carries d S.streams k <;> cases d <;> simp [hc]

end LolStreams
