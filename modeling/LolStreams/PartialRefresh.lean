import LolStreams.FilterOptions

/-! A refresh whose answer holds a record without a channel or a streamer: the loop over the
records stops in the middle of the first such record, after the list and some options have
been written. -/
namespace LolStreams

/-- A refresh that throws leaves the list and the three filters as they were. -/
def RefreshAtomic (answer : List Stream) (s : Scope) : Prop :=
  ∀ t, refreshStreamsCallback answer s = .threw t →
    t.streams = s.streams ∧ ∀ d, t.filter d = s.filter d

/-- The records whose option in a dimension is looked at before the loop throws. The team is
the last of the three, and the champion needs neither channel nor streamer. -/
def tried (d : Dimension) : List Stream → List Stream
  | [] => []
  | x :: xs =>
    match x.channel, x.streamer with
    | .val _, .val _ => x :: tried d xs
    | _, _ => if d = .team then [] else [x]

/-- Every option that the loop comes to can be read already. -/
def NoNewOption (answer : List Stream) (s : Scope) : Prop :=
  ∀ d o, s.filter d = some o → ∀ k, Offers d (tried d answer) k → o.get k ≠ none

theorem tried_complete {x : Stream} (hx : x.Complete) (d : Dimension) (xs : List Stream) :
    tried d (x :: xs) = x :: tried d xs := by
  obtain ⟨⟨c, hc⟩, t, ht⟩ := hx
  simp [tried, hc, ht]

theorem tried_incomplete {x : Stream} (hx : ¬ x.Complete) (d : Dimension) (xs : List Stream) :
    tried d (x :: xs) = if d = .team then [] else [x] := by
  rw [tried]
  split
  · rename_i c t hc ht
    exact absurd ⟨⟨c, hc⟩, t, ht⟩ hx
  · rfl

/-! ### The loop that throws -/

section
variable (write : JsObject → String → JsObject) {s : Scope} {f : Dimension → JsObject}

theorem offerOption_threw {x : Stream} {d : Dimension} {e : JsError} (h : d.offers x = .error e) :
    offerOption write d s x = .threw s ∧ ∀ o, offerTo write d o x = o := by
  simp [offerOption, offerTo, h]

/-- The first incomplete record is left after its champion, or after its language. -/
theorem offerOptions_threw {x : Stream} (hx : ¬ x.Complete) (hs : ∀ d, s.filter d = some (f d)) :
    ∃ t, offerOptions write s x = .threw t ∧ t.streams = s.streams ∧
      ∀ d, t.filter d = some (if d = .team then f d else offerTo write d (f d) x) := by
  obtain ⟨t₁, h₁, hl₁, hf₁⟩ :=
    offerOption_done write (d := .champion) (x := x) ⟨_, rfl⟩ ⟨_, rfl⟩ hs
  cases hc : x.channel with
  | val c =>
    have hlang : ∃ a, Dimension.lang.attr x = .ok a :=
      ⟨c.broadcasterLanguage, by simp [Dimension.attr, hc, Except.map]⟩
    have hoffers : ∃ b, Dimension.lang.offers x = .ok b := by
      simp [Dimension.offers, hc, Except.map]
    have hteam : Dimension.team.offers x = .error .typeError := by
      cases ht : x.streamer with
      | val t => exact absurd ⟨⟨c, hc⟩, t, ht⟩ hx
      | _ => simp [Dimension.offers, ht, JsField.deref, Except.map]
    obtain ⟨t₂, h₂, hl₂, hf₂⟩ := offerOption_done write hlang hoffers hf₁
    have h₃ := (offerOption_threw write (s := t₂) hteam).1
    refine ⟨t₂, ?_, hl₂.trans hl₁, ?_⟩
    · simp only [offerOptions, h₁, h₂, h₃, Outcome.andThen_done]
    · intro d
      rw [hf₂ d]
      cases d <;> simp
  | _ =>
    have hlang : Dimension.lang.offers x = .error .typeError := by
      simp [Dimension.offers, hc, JsField.deref, Except.map]
    obtain ⟨h₂, hsame⟩ := offerOption_threw write (s := t₁) hlang
    refine ⟨t₁, ?_, hl₁, ?_⟩
    · simp only [offerOptions, h₁, h₂, Outcome.andThen_done, Outcome.andThen_threw]
    · intro d
      rw [hf₁ d]
      cases d <;> simp [hsame]

theorem forEachStream_threw {xs : List Stream} (hx : ¬ ∀ x ∈ xs, x.Complete)
    (hs : ∀ d, s.filter d = some (f d)) :
    ∃ t, forEachStream (offerOptions write) s xs = .threw t ∧ t.streams = s.streams ∧
      ∀ d, t.filter d = some ((tried d xs).foldl (offerTo write d) (f d)) := by
  induction xs generalizing s f with
  | nil => simp at hx
  | cons x xs ih =>
    by_cases hc : x.Complete
    · have hxs : ¬ ∀ y ∈ xs, y.Complete :=
        fun h => hx (List.forall_mem_cons.mpr ⟨hc, h⟩)
      obtain ⟨t, ht, hl, hf⟩ := offerOptions_done write hc hs
      obtain ⟨u, hu, hl', hf'⟩ := ih hxs hf
      refine ⟨u, ?_, hl'.trans hl, ?_⟩
      · simp only [forEachStream, ht, Outcome.andThen_done, hu]
      · intro d
        rw [hf' d, tried_complete hc, List.foldl_cons]
    · obtain ⟨t, ht, hl, hf⟩ := offerOptions_threw write hc hs
      refine ⟨t, ?_, hl, ?_⟩
      · simp only [forEachStream, ht, Outcome.andThen_threw]
      · intro d
        rw [hf d, tried_incomplete hc]
        split_ifs <;> rfl

end

/-! ### When that writes nothing -/

theorem offerTo_eq_self {d : Dimension} {o : JsObject} {x : Stream}
    (h : ∀ k, d.offersKey k x = true → o.get k ≠ none) : offerTo assignIfUndefined d o x = o := by
  unfold offerTo
  split
  · rename_i a hoffers hattr
    have hget : o.get a.key ≠ none := h a.key (by simp [Dimension.offersKey, hoffers, hattr])
    rw [assignIfUndefined, if_neg (by simpa [Option.isNone_iff_eq_none] using hget)]
  · rfl

theorem foldl_offerTo_eq_self_iff {d : Dimension} {xs : List Stream} {o : JsObject} :
    xs.foldl (offerTo assignIfUndefined d) o = o ↔ ∀ k, Offers d xs k → o.get k ≠ none := by
  constructor
  · intro h k hk hget
    obtain ⟨hown, hp⟩ := JsObject.get_eq_none.mp hget
    have hval := owned_offers_assignIfUndefined d xs o k
    rw [h, if_pos ⟨hown, hk, hp⟩, hown] at hval
    cases hval
  · intro h
    induction xs with
    | nil => rfl
    | cons x xs ih =>
      have hx : offerTo assignIfUndefined d o x = o :=
        offerTo_eq_self fun k hk => h k ((offers_cons d x xs k).mpr (.inl hk))
      rw [List.foldl_cons, hx]
      exact ih fun k hk => h k ((offers_cons d x xs k).mpr (.inr hk))

/-- A refresh throws on no list of complete records. On any other it throws, and changes
nothing only if it brings the list that is there and no option that is not. -/
theorem refresh_atomic_iff {answer : List Stream} {s : Scope}
    (hs : ∀ d, (s.filter d).isSome) :
    RefreshAtomic answer s ↔
      (∀ x ∈ answer, x.Complete) ∨ s.streams = some answer ∧ NoNewOption answer s := by
  have hf : ∀ d, ∃ o, s.filter d = some o := fun d => Option.isSome_iff_exists.mp (hs d)
  choose f hf using hf
  by_cases hx : ∀ x ∈ answer, x.Complete
  · obtain ⟨t, ht, _⟩ := refreshStreamsCallback_spec ⟨answer, hx⟩ hf
    refine iff_of_true ?_ (.inl hx)
    intro u hu
    exact absurd (ht.symm.trans hu) (by simp)
  · have hf' : ∀ d, Scope.filter { s with streams := some answer } d = some (f d) := by
      intro d
      rw [Scope.filter_streams, hf d]
    obtain ⟨t, ht, hl, hft⟩ := forEachStream_threw assignIfUndefined hx hf'
    have hthrew : refreshStreamsCallback answer s = .threw t := by
      simp only [refreshStreamsCallback, ht, Outcome.andThen_threw]
    have hfilters : (∀ d, t.filter d = s.filter d) ↔ NoNewOption answer s := by
      simp only [NoNewOption, hft, hf, Option.some.injEq, foldl_offerTo_eq_self_iff,
        forall_eq']
    have hstreams : t.streams = s.streams ↔ s.streams = some answer := by
      rw [hl, eq_comm]
    simp only [RefreshAtomic, hthrew, Outcome.threw.injEq, forall_eq', hfilters, hstreams, hx,
      false_or]

theorem ListReached.filters_isSome {s : Scope} (h : ListReached s) (d : Dimension) :
    (s.filter d).isSome := by
  obtain ⟨_, _, hd⟩ := h.optionsBacked
  obtain ⟨o, ho, _⟩ := hd d
  exact Option.isSome_of_eq_some ho

/-- A record without a streamer object. -/
def halfRecord : Stream := { sampleStream "dyrus" "Ahri" "Ahri" with streamer := .undefined }

def halfRefreshed : Scope :=
  (refreshStreamsCallback [halfRecord] (loaded (sampleList "imaqtpie" "Draven" "Draven"))).scope

/-- The answer that the refresh has failed on comes again. -/
theorem refresh_atomic_ahri :
    (∃ t, refreshStreamsCallback [halfRecord] halfRefreshed = .threw t) ∧
      RefreshAtomic [halfRecord] halfRefreshed := by
  have hs : ∀ d, (halfRefreshed.filter d).isSome := by
    intro d
    cases d <;> rfl
  refine ⟨⟨_, rfl⟩, (refresh_atomic_iff hs).mpr (.inr ⟨rfl, ?_⟩)⟩
  intro d o ho k hk
  obtain ⟨x, hx, hoffers⟩ := hk
  cases d with
  | champion =>
    cases ho
    obtain rfl := List.mem_singleton.mp hx
    obtain rfl : "Ahri" = k := of_decide_eq_true hoffers
    decide
  | lang =>
    cases ho
    obtain rfl := List.mem_singleton.mp hx
    obtain rfl : "en" = k := of_decide_eq_true hoffers
    decide
  | team => cases hx

/-- Such a record ends the refresh with the new list in place and its champion among the
options. -/
theorem refresh_half_done :
    ¬ ∀ answer s, ListReached s → (∀ d, (s.filter d).isSome) → RefreshAtomic answer s := by
  intro h
  have hs : ListReached (loaded (sampleList "imaqtpie" "Draven" "Draven")) := ⟨_, .refl⟩
  obtain ⟨hstreams, _⟩ := h [halfRecord]
    (loaded (sampleList "imaqtpie" "Draven" "Draven")) hs hs.filters_isSome _ rfl
  exact absurd hstreams (by decide)

end LolStreams
