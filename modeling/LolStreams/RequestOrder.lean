import LolStreams.StreamList

/-! Answers to several outstanding `Stream.query` requests, in the order in which they
arrive. Request 0 is the one of controller start; the others come from the REFRESH link or
the timer. A failed request runs no success callback, so only the answered ones appear. -/
namespace LolStreams

structure Answers where
  answered : List (ℕ × StreamList)
  nodup : (Entries.keys answered).Nodup
  nonempty : answered ≠ []

def callback (i : ℕ) (answer : StreamList) : Scope → Outcome :=
  if i = 0 then streamsCallback answer.streams else refreshStreamsCallback answer.streams

/-- Whether every callback completed, and the scope they leave. -/
def process : List (ℕ × StreamList) → Scope → Bool × Scope
  | [], s => (true, s)
  | (i, answer) :: rest, s =>
    let o := callback i answer s
    let r := process rest o.scope
    (o.completed && r.1, r.2)

/-- The scope with the three dynamic filters empty. -/
def Scope.emptyMaps : Scope :=
  { Scope.start with
    championFilter := some .empty
    langFilter := some .empty
    teamFilter := some .empty }

/-- The list an arrival order ends with. -/
def lastList (as : List (ℕ × StreamList)) : Option (List Stream) :=
  as.getLast?.map fun a => a.2.streams

namespace Answers

def inRequestOrder (r : Answers) : List (ℕ × StreamList) :=
  r.answered.insertionSort fun a b => a.1 ≤ b.1

/-- The list of the most recently issued request that succeeded. -/
def latest (r : Answers) : Option (List Stream) := lastList r.inRequestOrder

/-- All callbacks complete, the latest list is installed, and the filters are those that
processing the answers in the order of the requests gives. -/
def OrderInsensitive (r : Answers) : Prop :=
  (process r.answered .start).1 = true ∧
    (process r.answered .start).2.streams = r.latest ∧
    ∀ d, ∃ o m, (process r.answered .start).2.filter d = some o ∧
      (process r.inRequestOrder .emptyMaps).2.filter d = some m ∧ ∀ k, o.owned k = m.owned k

end Answers

/-- `k` is an option after the first answer `first` and the refreshes `later`: it was offered
at some point and every refresh from there on carries it. -/
def LeftOver (d : Dimension) (first : List Stream) (later : List (List Stream)) (k : String) :
    Prop :=
  (Offers d first k ∧ k ≠ "__proto__" ∧ ∀ l ∈ later, Carries d l k) ∨
    ∃ a l b, later = a ++ l :: b ∧ Offers d l k ∧ k ∉ objectPrototype ∧
      ∀ l' ∈ l :: b, Carries d l' k

def lists (as : List (ℕ × StreamList)) : List (List Stream) := as.map fun a => a.2.streams

/-- The first answer succeeds and whatever overtakes it offers no option; the latest request
is answered last; and an option that the latest list carries without offering it is left
over from the answers before in both orders or in neither. -/
def Answers.InStep (r : Answers) : Prop :=
  ∃ before first after, r.answered = before ++ (0, first) :: after ∧
    (∀ l ∈ lists before, ∀ d k, ¬ Offers d l k) ∧
    lastList r.answered = r.latest ∧
    ∀ l, r.latest = some l → ∀ d k, Carries d l k → (Offers d l k → k ∈ objectPrototype) →
      (LeftOver d first.streams (lists after).dropLast k ↔
        LeftOver d first.streams (lists r.inRequestOrder.tail).dropLast k)

/-! ### Refreshes before the filters exist -/

open scoped Classical in
theorem offerOption_unloaded {d : Dimension} {s : Scope} {x : Stream} (hx : x.Complete)
    (hs : s.filter d = none) :
    offerOption assignIfUndefined d s x =
      if ∃ k, d.offersKey k x = true then .threw s else .done s := by
  obtain ⟨a, ha⟩ := hx.attr d
  obtain ⟨b, hb⟩ := hx.offers d
  cases b <;> simp [offerOption, hb, ha, hs, Dimension.offersKey]

open scoped Classical in
theorem offerOptions_unloaded {s : Scope} {x : Stream} (hx : x.Complete)
    (hs : ∀ d, s.filter d = none) :
    offerOptions assignIfUndefined s x =
      if ∃ d : Dimension, ∃ k, d.offersKey k x = true then .threw s else .done s := by
  have hd : (∃ d : Dimension, ∃ k, d.offersKey k x = true) ↔
      (∃ k, Dimension.champion.offersKey k x = true) ∨
      (∃ k, Dimension.lang.offersKey k x = true) ∨
      ∃ k, Dimension.team.offersKey k x = true := by
    constructor
    · rintro ⟨d, h⟩
      cases d
      · exact .inl h
      · exact .inr (.inl h)
      · exact .inr (.inr h)
    · rintro (h | h | h)
      exacts [⟨_, h⟩, ⟨_, h⟩, ⟨_, h⟩]
  simp only [offerOptions, offerOption_unloaded hx (hs .champion), hd]
  by_cases h₁ : ∃ k, Dimension.champion.offersKey k x = true
  · simp [h₁, Outcome.andThen]
  · simp only [h₁, if_false, Outcome.andThen_done, offerOption_unloaded hx (hs .lang), false_or]
    by_cases h₂ : ∃ k, Dimension.lang.offersKey k x = true
    · simp [h₂, Outcome.andThen]
    · simp only [h₂, if_false, Outcome.andThen_done, offerOption_unloaded hx (hs .team),
        false_or]

open scoped Classical in
theorem forEachStream_unloaded {s : Scope} {xs : List Stream} (hx : ∀ x ∈ xs, x.Complete)
    (hs : ∀ d, s.filter d = none) :
    forEachStream (offerOptions assignIfUndefined) s xs =
      if ∃ d k, Offers d xs k then .threw s else .done s := by
  induction xs with
  | nil => simp [forEachStream]
  | cons x xs ih =>
    have hi := ih fun y hy => hx y (List.mem_cons_of_mem _ hy)
    simp only [forEachStream, offerOptions_unloaded (hx x List.mem_cons_self) hs, offers_cons]
    by_cases h : ∃ d : Dimension, ∃ k, d.offersKey k x = true
    · have h' : ∃ d k, Dimension.offersKey d k x = true ∨ Offers d xs k := by
        obtain ⟨d, k, hk⟩ := h
        exact ⟨d, k, .inl hk⟩
      rw [if_pos h, if_pos h']
      rfl
    · have h' : (∃ d k, Dimension.offersKey d k x = true ∨ Offers d xs k) ↔
          ∃ d k, Offers d xs k := by
        refine exists_congr fun d => exists_congr fun k => ?_
        have hn : ¬ d.offersKey k x = true := fun hk => h ⟨d, k, hk⟩
        simp [hn]
      rw [if_neg h, Outcome.andThen_done, hi]
      simp only [h']

/-- A refresh answer that overtakes the first one creates no filter, and completes only if
it has no option to offer. -/
theorem refresh_unloaded (S : StreamList) {s : Scope} (hs : ∀ d, s.filter d = none) :
    (∀ d, (refreshStreamsCallback S.streams s).scope.filter d = none) ∧
      (refreshStreamsCallback S.streams s).scope.streams = some S.streams ∧
      ((refreshStreamsCallback S.streams s).completed = true ↔
        ∀ d k, ¬ Offers d S.streams k) := by
  have hs' : ∀ d, Scope.filter { s with streams := some S.streams } d = none := by
    intro d
    rw [Scope.filter_streams, hs d]
  simp only [refreshStreamsCallback, forEachStream_unloaded S.complete hs']
  by_cases h : ∃ d k, Offers d S.streams k
  · rw [if_pos h]
    refine ⟨hs', rfl, ?_⟩
    simp only [Outcome.andThen, Outcome.completed, Bool.false_eq_true, false_iff, not_forall,
      not_not]
    exact h
  · have hp : ∀ d, prune d S.streams { s with streams := some S.streams } =
        .done { s with streams := some S.streams } := fun d => by simp only [prune, hs' d]
    rw [if_neg h]
    simp only [Outcome.andThen_done, hp]
    refine ⟨hs', rfl, ?_⟩
    simp only [Outcome.completed, true_iff]
    exact fun d k hk => h ⟨d, k, hk⟩

/-! ### Filters as sets of options -/

/-- The object has exactly the options `p`, none selected. -/
def Unselected (o : JsObject) (p : String → Prop) : Prop :=
  ∀ k, (o.owned k = some (.bool false) ∧ p k) ∨ (o.owned k = none ∧ ¬ p k)

theorem unselected_owned_eq_iff {o m : JsObject} {p q : String → Prop} (ho : Unselected o p)
    (hm : Unselected m q) : (∀ k, o.owned k = m.owned k) ↔ ∀ k, p k ↔ q k := by
  refine forall_congr' fun k => ?_
  rcases ho k with ⟨ho, hp⟩ | ⟨ho, hp⟩ <;> rcases hm k with ⟨hm, hq⟩ | ⟨hm, hq⟩ <;>
    simp [ho, hm, hp, hq]

theorem leftOver_nil (d : Dimension) (first : List Stream) (k : String) :
    LeftOver d first [] k ↔ Offers d first k ∧ k ≠ "__proto__" := by
  simp [LeftOver]

theorem leftOver_append (d : Dimension) (first : List Stream) (later : List (List Stream))
    (l : List Stream) (k : String) :
    LeftOver d first (later ++ [l]) k ↔
      Carries d l k ∧ (LeftOver d first later k ∨ Offers d l k ∧ k ∉ objectPrototype) := by
  constructor
  · rintro (⟨ho, hp, hc⟩ | ⟨a, l', b, he, ho, hp, hc⟩)
    · have hl : Carries d l k := hc l (by simp)
      have hlater : ∀ m ∈ later, Carries d m k := fun m hm => hc m (List.mem_append_left _ hm)
      exact ⟨hl, .inl (.inl ⟨ho, hp, hlater⟩)⟩
    · rcases List.eq_nil_or_concat b with rfl | ⟨b', m, rfl⟩
      · obtain ⟨rfl, hl⟩ := List.append_inj' he rfl
        obtain rfl : l = l' := by simpa using hl
        exact ⟨hc l (by simp), .inr ⟨ho, hp⟩⟩
      · have he' : later ++ [l] = (a ++ l' :: b') ++ [m] := by simpa using he
        obtain ⟨rfl, hl⟩ := List.append_inj' he' rfl
        obtain rfl : l = m := by simpa using hl
        refine ⟨hc l (by simp), .inl (.inr ⟨a, l', b', rfl, ho, hp, ?_⟩)⟩
        intro n hn
        have hn' : n ∈ l' :: b'.concat l := by
          rw [List.concat_eq_append, ← List.cons_append]
          exact List.mem_append_left _ hn
        exact hc n hn'
  · rintro ⟨hc, (⟨ho, hp, hl⟩ | ⟨a, l', b, rfl, ho, hp, hl⟩) | ⟨ho, hp⟩⟩
    · refine .inl ⟨ho, hp, ?_⟩
      intro m hm
      rcases List.mem_append.mp hm with hm | hm
      · exact hl m hm
      · rwa [List.mem_singleton.mp hm]
    · refine .inr ⟨a, l', b ++ [l], by simp, ho, hp, ?_⟩
      intro m hm
      rw [← List.cons_append, List.mem_append] at hm
      rcases hm with hm | hm
      · exact hl m hm
      · rwa [List.mem_singleton.mp hm]
    · refine .inr ⟨later, l, [], rfl, ho, hp, ?_⟩
      intro m hm
      rwa [List.mem_singleton.mp hm]

/-- Nothing is left over when nothing was offered. -/
theorem not_leftOver {d : Dimension} {first : List Stream} {later : List (List Stream)}
    {k : String} (h₀ : ¬ Offers d first k) (h : ∀ l ∈ later, ¬ Offers d l k) :
    ¬ LeftOver d first later k := by
  rintro (⟨ho, _⟩ | ⟨a, l, b, rfl, ho, _⟩)
  · exact h₀ ho
  · exact h l (by simp) ho

/-! ### Processing the answers -/

theorem process_append (as bs : List (ℕ × StreamList)) (s : Scope) :
    process (as ++ bs) s =
      ((process as s).1 && (process bs (process as s).2).1, (process bs (process as s).2).2) := by
  induction as generalizing s with
  | nil => simp [process]
  | cons a as ih => simp [process, ih, Bool.and_assoc]

theorem process_refresh {i : ℕ} (hi : i ≠ 0) {S : StreamList} {s t : Scope}
    (h : refreshStreamsCallback S.streams s = .done t) : process [(i, S)] s = (true, t) := by
  simp [process, callback, hi, h, Outcome.completed, Outcome.scope]

@[simp] theorem lastList_append_singleton (as : List (ℕ × StreamList)) (a : ℕ × StreamList) :
    lastList (as ++ [a]) = some a.2.streams := by simp [lastList]

theorem lastList_append_cons (as bs : List (ℕ × StreamList)) (a : ℕ × StreamList) :
    lastList (as ++ a :: bs) = lastList (a :: bs) := by
  simp [lastList, List.getLast?_append, List.getLast?_cons]

/-- Refreshes alone never create the filters. -/
theorem process_unloaded {as : List (ℕ × StreamList)} (ha : 0 ∉ Entries.keys as) {s : Scope}
    (hs : ∀ d, s.filter d = none) :
    (∀ d, (process as s).2.filter d = none) ∧
      ((process as s).1 = true ↔ ∀ l ∈ lists as, ∀ d k, ¬ Offers d l k) := by
  induction as generalizing s with
  | nil => simpa [process, lists] using hs
  | cons a as ih =>
    rcases a with ⟨i, S⟩
    rw [Entries.keys_cons, List.mem_cons, not_or] at ha
    obtain ⟨hf, _, hc⟩ := refresh_unloaded S hs
    obtain ⟨hf', hc'⟩ := ih ha.2 hf
    simp only [process, callback, if_neg (Ne.symm ha.1), Bool.and_eq_true, hc]
    refine ⟨hf', ?_⟩
    simp only [hc', lists, List.map_cons, List.mem_cons, forall_eq_or_imp]

/-- From the first answer on everything completes, and the filters are what is left over. -/
theorem process_loaded (first : StreamList) {after : List (ℕ × StreamList)}
    (ha : 0 ∉ Entries.keys after) (s : Scope) :
    (process ((0, first) :: after) s).1 = true ∧
      (process ((0, first) :: after) s).2.streams = lastList ((0, first) :: after) ∧
      ∀ d, ∃ o, (process ((0, first) :: after) s).2.filter d = some o ∧
        Unselected o (LeftOver d first.streams (lists after)) := by
  induction after using List.reverseRecOn with
  | nil =>
    obtain ⟨t, ht, hl, hf⟩ := streamsCallback_spec first s
    simp only [process, callback, if_true, ht, Outcome.completed, Outcome.scope, Bool.and_true]
    refine ⟨trivial, hl, ?_⟩
    intro d
    obtain ⟨o, ho, hv⟩ := hf d
    refine ⟨o, ho, ?_⟩
    intro k
    rw [hv, lists, List.map_nil, leftOver_nil]
    by_cases h : Offers d first.streams k ∧ k ≠ "__proto__"
    · exact .inl ⟨if_pos h, h⟩
    · exact .inr ⟨if_neg h, h⟩
  | append_singleton as a ih =>
    rcases a with ⟨i, S⟩
    have hk : 0 ∉ Entries.keys as ∧ 0 ≠ i := by simpa [not_or] using ha
    obtain ⟨h₁, _, h₃⟩ := ih hk.1
    choose f hf hu using h₃
    obtain ⟨t, ht, hl, hv⟩ := refreshStreamsCallback_spec S hf
    rw [← List.cons_append, process_append, process_refresh (Ne.symm hk.2) ht]
    refine ⟨by simp [h₁], by rw [lastList_append_singleton]; exact hl, ?_⟩
    intro d
    obtain ⟨o, ho, hval⟩ := hv d
    refine ⟨o, ho, ?_⟩
    intro k
    rw [hval, refreshedValue, lists, List.map_append, List.map_singleton, leftOver_append]
    by_cases hc : Carries d S.streams k
    · rw [if_pos hc]
      rcases hu d k with ⟨h, hp⟩ | ⟨h, hp⟩
      · have hkept : ¬((f d).owned k = none ∧ Offers d S.streams k ∧ k ∉ objectPrototype) := by
          simp [h]
        rw [if_neg hkept]
        exact .inl ⟨h, hc, .inl hp⟩
      · by_cases ho : Offers d S.streams k ∧ k ∉ objectPrototype
        · rw [if_pos ⟨h, ho⟩]
          exact .inl ⟨rfl, hc, .inr ho⟩
        · rw [if_neg fun hn => ho hn.2]
          refine .inr ⟨h, ?_⟩
          rintro ⟨_, hl | hl⟩
          · exact hp hl
          · exact ho hl
    · rw [if_neg hc]
      exact .inr ⟨rfl, fun h => hc h.1⟩

/-! ### The law -/

theorem keys_eq_zero_unique {as : List (ℕ × StreamList)} (hn : (Entries.keys as).Nodup)
    {before after : List (ℕ × StreamList)} {first : StreamList}
    (h : as = before ++ (0, first) :: after) :
    0 ∉ Entries.keys before ∧ 0 ∉ Entries.keys after := by
  rw [h, Entries.keys_append, Entries.keys_cons, List.nodup_append, List.nodup_cons] at hn
  exact ⟨fun hb => hn.2.2 0 hb 0 (by simp) rfl, hn.2.1.1⟩

/-- In the order of the requests the first one, if it succeeded, stands in front. -/
theorem Answers.inRequestOrder_cons (r : Answers) {first : StreamList}
    (h : (0, first) ∈ r.answered) :
    r.inRequestOrder = (0, first) :: r.inRequestOrder.tail ∧
      0 ∉ Entries.keys r.inRequestOrder.tail ∧
      r.answered.Perm ((0, first) :: r.inRequestOrder.tail) := by
  have hperm : r.inRequestOrder.Perm r.answered := List.perm_insertionSort _ _
  have hsort : r.inRequestOrder.Pairwise fun a b => a.1 ≤ b.1 :=
    List.pairwise_insertionSort _ r.answered
  have hnodup : (Entries.keys r.inRequestOrder).Nodup :=
    (hperm.map Prod.fst).nodup_iff.mpr r.nodup
  have hmem : (0, first) ∈ r.inRequestOrder := hperm.mem_iff.mpr h
  cases hl : r.inRequestOrder with
  | nil => simp [hl] at hmem
  | cons a as =>
    rw [hl] at hperm hsort hnodup hmem
    have ha : a = (0, first) := by
      rcases List.mem_cons.mp hmem with he | he
      · exact he.symm
      · have hle : a.1 ≤ 0 := (List.pairwise_cons.mp hsort).1 _ he
        have hz : (0 : ℕ) ∈ Entries.keys as := List.mem_map.mpr ⟨_, he, rfl⟩
        rw [Entries.keys_cons, List.nodup_cons, Nat.le_zero.mp hle] at hnodup
        exact absurd hz hnodup.1
    subst ha
    rw [Entries.keys_cons, List.nodup_cons] at hnodup
    exact ⟨rfl, hnodup.1, hperm.symm⟩

/-- With the first request answered, the filters agree exactly when the same options are left
over in both orders. -/
theorem filters_agree_iff (r : Answers) {before after : List (ℕ × StreamList)}
    {first : StreamList} (h : r.answered = before ++ (0, first) :: after) :
    (∀ d, ∃ o m, (process r.answered .start).2.filter d = some o ∧
      (process r.inRequestOrder .emptyMaps).2.filter d = some m ∧ ∀ k, o.owned k = m.owned k) ↔
    ∀ d k, LeftOver d first.streams (lists after) k ↔
      LeftOver d first.streams (lists r.inRequestOrder.tail) k := by
  obtain ⟨_, ha⟩ := keys_eq_zero_unique r.nodup h
  have hmem : (0, first) ∈ r.answered := by simp [h]
  obtain ⟨hr, hz, _⟩ := r.inRequestOrder_cons hmem
  obtain ⟨_, _, hf⟩ := process_loaded first ha (process before .start).2
  obtain ⟨_, _, hg⟩ := process_loaded first hz .emptyMaps
  rw [h, process_append]
  rw [← hr] at hg
  choose f hf hu using hf
  choose g hg hv using hg
  refine forall_congr' fun d => ?_
  constructor
  · rintro ⟨o, m, ho, hm, he⟩
    obtain rfl : f d = o := Option.some.inj ((hf d).symm.trans ho)
    obtain rfl : g d = m := Option.some.inj ((hg d).symm.trans hm)
    exact (unselected_owned_eq_iff (hu d) (hv d)).mp he
  · intro he
    exact ⟨f d, g d, hf d, hg d, (unselected_owned_eq_iff (hu d) (hv d)).mpr he⟩

theorem lists_append (as bs : List (ℕ × StreamList)) : lists (as ++ bs) = lists as ++ lists bs := by
  simp [lists]

/-- When the same list comes last in both orders, only the options it carries without
offering them can differ. -/
theorem leftOver_agree_iff (r : Answers) {before after : List (ℕ × StreamList)}
    {first : StreamList} (h : r.answered = before ++ (0, first) :: after)
    (hb : ∀ l ∈ lists before, ∀ d k, ¬ Offers d l k) (hlast : lastList r.answered = r.latest) :
    (∀ d k, LeftOver d first.streams (lists after) k ↔
      LeftOver d first.streams (lists r.inRequestOrder.tail) k) ↔
    ∀ l, r.latest = some l → ∀ d k, Carries d l k → (Offers d l k → k ∈ objectPrototype) →
      (LeftOver d first.streams (lists after).dropLast k ↔
        LeftOver d first.streams (lists r.inRequestOrder.tail).dropLast k) := by
  have hmem : (0, first) ∈ r.answered := by simp [h]
  obtain ⟨hr, _, hperm⟩ := r.inRequestOrder_cons hmem
  generalize r.inRequestOrder.tail = later at hr hperm ⊢
  have hlater : later.Perm (before ++ after) := by
    rw [h] at hperm
    exact (List.perm_cons _).mp (hperm.symm.trans List.perm_middle)
  have hlatest : r.latest = lastList ((0, first) :: later) := by rw [← hr]; rfl
  rcases List.eq_nil_or_concat after with rfl | ⟨as, a, rfl⟩
  · -- the first answer comes in last: everything it overtook was empty of options
    rcases List.eq_nil_or_concat later with rfl | ⟨bs, b, rfl⟩
    · simp
    have hfirst : first.streams = b.2.streams := by
      have hl := hlast.trans hlatest
      rw [h, List.concat_eq_append, ← List.cons_append, lastList_append_singleton,
        lastList_append_singleton] at hl
      exact Option.some.inj hl
    have hno : ∀ l ∈ lists (bs.concat b), ∀ d k, ¬ Offers d l k := by
      intro l hl
      apply hb
      rw [List.append_nil] at hlater
      exact (hlater.map fun a => a.2.streams).subset hl
    have hno₀ : ∀ d k, ¬ Offers d first.streams k := by
      rw [hfirst]
      exact hno _ (by simp [lists])
    have hl₁ : ∀ d k, ¬ LeftOver d first.streams (lists (bs.concat b)) k :=
      fun d k => not_leftOver (hno₀ d k) fun l hl => hno l hl d k
    have hl₂ : ∀ d k, ¬ LeftOver d first.streams (lists (bs.concat b)).dropLast k :=
      fun d k => not_leftOver (hno₀ d k) fun l hl => hno l (List.mem_of_mem_dropLast hl) d k
    have hl₃ : ∀ d k, ¬ LeftOver d first.streams [] k :=
      fun d k => not_leftOver (hno₀ d k) (by simp)
    constructor
    · intro _ l _ d k _ _
      exact iff_of_false (hl₃ d k) (hl₂ d k)
    · intro _ d k
      exact iff_of_false (hl₃ d k) (hl₁ d k)
  · rcases List.eq_nil_or_concat later with rfl | ⟨bs, b, rfl⟩
    · simpa using hlater.length_eq
    have hab : a.2.streams = b.2.streams := by
      have hl := hlast.trans hlatest
      rw [h, List.concat_eq_append, List.concat_eq_append, ← List.cons_append,
        ← List.cons_append, ← List.append_assoc, lastList_append_singleton,
        lastList_append_singleton] at hl
      exact Option.some.inj hl
    have hlat : r.latest = some b.2.streams := by
      rw [hlatest, List.concat_eq_append, ← List.cons_append, lastList_append_singleton]
    simp only [List.concat_eq_append, lists_append, hlat, Option.some.injEq, forall_eq']
    simp only [lists, List.map_singleton, leftOver_append, hab, List.dropLast_concat]
    refine forall_congr' fun d => forall_congr' fun k => ?_
    by_cases hc : Carries d b.2.streams k
    · by_cases ho : Offers d b.2.streams k ∧ k ∉ objectPrototype
      · simp [ho]
      · have ho' : Offers d b.2.streams k → k ∈ objectPrototype := by simpa using ho
        simp only [hc, ho, true_and, or_false, true_implies, forall_prop_of_true ho']
    · simp [hc]

/-- The law holds exactly when the answers come in step. -/
theorem order_insensitive_iff (r : Answers) : r.OrderInsensitive ↔ r.InStep := by
  by_cases h₀ : 0 ∈ Entries.keys r.answered
  · obtain ⟨⟨i, first⟩, hm, rfl : i = 0⟩ := List.mem_map.mp h₀
    obtain ⟨before, after, h⟩ := List.append_of_mem hm
    obtain ⟨hb, ha⟩ := keys_eq_zero_unique r.nodup h
    obtain ⟨hnone, hdone⟩ := process_unloaded hb (s := .start) (by intro d; cases d <;> rfl)
    obtain ⟨hd, hl, _⟩ := process_loaded first ha (process before .start).2
    have hcomp : (process r.answered .start).1 = true ↔
        ∀ l ∈ lists before, ∀ d k, ¬ Offers d l k := by
      rw [h, process_append, hd, Bool.and_true, hdone]
    have hstreams : (process r.answered .start).2.streams = lastList r.answered := by
      rw [h, process_append, hl, lastList_append_cons]
    constructor
    · rintro ⟨hc, hs, hf⟩
      rw [hstreams] at hs
      rw [hcomp] at hc
      rw [filters_agree_iff r h, leftOver_agree_iff r h hc hs] at hf
      exact ⟨before, first, after, h, hc, hs, hf⟩
    · rintro ⟨before', first', after', h', hc, hs, hf⟩
      have hc' : (process r.answered .start).1 = true := by
        obtain ⟨hb', ha'⟩ := keys_eq_zero_unique r.nodup h'
        rw [h', process_append, (process_loaded first' ha' _).1, Bool.and_true]
        exact (process_unloaded hb' (by intro d; cases d <;> rfl)).2.mpr hc
      refine ⟨hc', hstreams.trans hs, ?_⟩
      rw [filters_agree_iff r h', leftOver_agree_iff r h' hc hs]
      exact hf
  · obtain ⟨hnone, _⟩ := process_unloaded h₀ (s := .start) (by intro d; cases d <;> rfl)
    constructor
    · rintro ⟨_, _, hf⟩
      obtain ⟨o, m, ho, _⟩ := hf .champion
      simp [hnone] at ho
    · rintro ⟨before, first, after, h, _⟩
      exact absurd (by simp [h]) h₀

/-- A refresh answered before the first load throws on its first live record. -/
def overtaken : Answers where
  answered := [(1, sampleList "dyrus" "Ahri" "Ahri"), (0, sampleList "dyrus" "Ahri" "Ahri")]
  nodup := by decide
  nonempty := by decide

theorem overtaking_refresh_throws : ¬ ∀ r : Answers, r.OrderInsensitive :=
  fun h => absurd (h overtaken).1 (by decide)

end LolStreams
