import LolStreams.Dict

/-! The dictionary refines a finite map over every run, whatever the hash, the policy of
resizing and the iterators that hold the moving of buckets up, and no run fails. -/
namespace LolStreams

open Chaining

variable {κ β : Type} {hash : κ → UInt32}

/-! ### The invariant -/

/-- The tables of a dictionary that stands for a map. -/
structure Dict.Holds (hash : κ → UInt32) (d : Dict κ β) (m : κ → Option β) : Prop where
  placed0 : d.ht0.Placed (dictHashKey hash)
  placed1 : d.ht1.Placed (dictHashKey hash)
  graph : Graph (d.ht0.entries ++ d.ht1.entries) m
  pow0 : d.ht0.size ≠ 0 → ∃ n, d.ht0.size = 2 ^ n
  pow1 : d.ht1.size ≠ 0 → ∃ n, d.ht1.size = 2 ^ n
  idle : d.rehashidx = none → d.ht1 = .empty
  allocated : d.rehashidx.isSome → d.ht0.size ≠ 0 ∧ d.ht1.size ≠ 0
  moved : ∀ r, d.rehashidx = some r → ∀ i b, i < r → d.ht0.buckets[i]? = some b → b = []

theorem holds_dictCreate : (dictCreate : Dict κ β).Holds hash fun _ => none where
  placed0 := Table.placed_empty
  placed1 := Table.placed_empty
  graph := Graph.nil
  pow0 h := absurd rfl h
  pow1 h := absurd rfl h
  idle _ := rfl
  allocated h := by simp [dictCreate] at h
  moved r h := by simp [dictCreate] at h

/-! ### Resizing -/

theorem exists_nextPowerFrom (size : ℕ) : ∀ n i, ∃ k, nextPowerFrom size n i = i * 2 ^ k := by
  intro n
  induction n with
  | zero => exact fun i => ⟨0, (Nat.mul_one i).symm⟩
  | succ n ih =>
    intro i
    rw [nextPowerFrom]
    split_ifs with h
    · exact ⟨0, (Nat.mul_one i).symm⟩
    · obtain ⟨k, hk⟩ := ih (i * 2)
      refine ⟨k + 1, ?_⟩
      rw [hk, pow_succ]
      ring

theorem exists_dictNextPower (size : ℕ) : ∃ k, dictNextPower size = 2 ^ k := by
  obtain ⟨k, hk⟩ := exists_nextPowerFrom size size 4
  exact ⟨k + 2, by rw [dictNextPower, hk, pow_add]; ring⟩

theorem dictNextPower_ne_zero (size : ℕ) : dictNextPower size ≠ 0 := by
  obtain ⟨k, hk⟩ := exists_dictNextPower size
  rw [hk]
  positivity

/-! ### Tables -/

section

variable {t : Table κ β}

theorem entries_of_size_eq_zero (h : t.size = 0) : t.entries = [] := by
  rw [Table.entries, List.eq_nil_of_length_eq_zero h]
  rfl

theorem linkEntry_spec (hp : t.Placed (dictHashKey hash)) (hs : t.size ≠ 0) (e : κ × β) :
    ∃ t', linkEntry hash t e = some t' ∧ t'.Placed (dictHashKey hash) ∧ t'.size = t.size ∧
      t'.entries.Perm (e :: t.entries) := by
  obtain ⟨b, hb⟩ := Table.exists_bucket (dictHashKey hash) hs e.1
  refine ⟨t.setBucket (t.index (dictHashKey hash) e.1) (e :: b) (t.used + 1), ?_, ?_, ?_, ?_⟩
  · rw [linkEntry, hb]
    rfl
  · apply hp.setBucket hb
    · intro e' he'
      rcases List.mem_cons.mp he' with rfl | he'
      · rfl
      · exact hp.index_eq _ b hb e' he'
    · rw [List.length_cons]
      omega
  · exact Table.size_setBucket _ _ _
  · have hcons := Table.entries_setBucket_cons hb (.refl (e :: b)) (t.used + 1) t.used
    rwa [Table.setBucket_self hb] at hcons

/-- A whole chain is moved. -/
theorem foldlM_linkEntry (b : List (κ × β)) (hp : t.Placed (dictHashKey hash))
    (hs : t.size ≠ 0) :
    ∃ t', b.foldlM (linkEntry hash) t = some t' ∧ t'.Placed (dictHashKey hash) ∧
      t'.size = t.size ∧ t'.entries.Perm (b ++ t.entries) := by
  induction b generalizing t with
  | nil => exact ⟨t, rfl, hp, rfl, .refl _⟩
  | cons e b ih =>
    obtain ⟨u, hu, hpu, hsu, heu⟩ := linkEntry_spec hp hs e
    obtain ⟨t', ht', hpt, hst, het⟩ := ih hpu (hsu ▸ hs)
    refine ⟨t', ?_, hpt, hst.trans hsu, ?_⟩
    · rw [List.foldlM_cons, hu]
      exact ht'
    · exact het.trans ((heu.append_left b).trans List.perm_middle)

theorem used_eq_zero_iff (hp : t.Placed (dictHashKey hash)) : t.used = 0 ↔ t.entries = [] := by
  rw [hp.used_eq, List.length_eq_zero_iff]

end

namespace Dict.Holds

variable {d : Dict κ β} {m : κ → Option β}

theorem expand (h : d.Holds hash m) (size : ℕ) : (dictExpand d size).1.Holds hash m := by
  rw [dictExpand]
  split_ifs with hrefuse hnew
  · exact h
  · have hidle : d.rehashidx = none := by
      rw [not_or] at hrefuse
      simpa [dictIsRehashing] using hrefuse.1
    have hentries := entries_of_size_eq_zero hnew
    exact
      { placed0 := Table.placed_ofSize _
        placed1 := h.placed1
        graph := by
          rw [Table.entries_ofSize, ← hentries]
          exact h.graph
        pow0 := fun _ => by
          rw [Table.size_ofSize]
          exact exists_dictNextPower size
        pow1 := h.pow1
        idle := h.idle
        allocated := fun hbusy => by simp [hidle] at hbusy
        moved := fun r hr => by simp [hidle] at hr }
  · have hidle : d.rehashidx = none := by
      rw [not_or] at hrefuse
      simpa [dictIsRehashing] using hrefuse.1
    exact
      { placed0 := h.placed0
        placed1 := Table.placed_ofSize _
        graph := by
          have hgraph := h.graph
          rw [h.idle hidle] at hgraph
          rw [Table.entries_ofSize]
          exact hgraph
        pow0 := h.pow0
        pow1 := fun _ => by
          rw [Table.size_ofSize]
          exact exists_dictNextPower size
        idle := fun hnone => by cases hnone
        allocated := fun _ => ⟨hnew, by
          rw [Table.size_ofSize]
          exact dictNextPower_ne_zero size⟩
        moved := fun r hr i b hi _ => by
          cases hr
          exact absurd hi (Nat.not_lt_zero i) }

theorem resize (h : d.Holds hash m) (canResize : Bool) :
    (dictResize canResize d).1.Holds hash m := by
  rw [dictResize]
  split_ifs
  · exact h
  · exact h.expand 4
  · exact h.expand _

theorem expandIfNeeded (h : d.Holds hash m) (canResize : Bool) :
    (dictExpandIfNeeded canResize d).1.Holds hash m := by
  rw [dictExpandIfNeeded]
  split_ifs
  · exact h
  · exact h.expand 4
  · exact h.expand _
  · exact h

/-! ### Moving buckets -/

/-- There is a bucket left to move, and those before it are empty. -/
theorem exists_next (h : d.Holds hash m) {r : ℕ} (hr : d.rehashidx = some r)
    (hused : d.ht0.used ≠ 0) :
    r < d.ht0.size ∧ ∃ j b, (d.ht0.buckets.drop r).findIdx? (fun b => !b.isEmpty) = some j ∧
      d.ht0.buckets[r + j]? = some b ∧
      ∀ i c, i < r + j → d.ht0.buckets[i]? = some c → c = [] := by
  have hne : d.ht0.entries ≠ [] := fun he => hused ((used_eq_zero_iff h.placed0).mpr he)
  obtain ⟨e, he⟩ := List.exists_mem_of_ne_nil _ hne
  obtain ⟨b, hb, heb⟩ := List.mem_flatten.mp he
  obtain ⟨i, hi⟩ := List.getElem?_of_mem hb
  have hri : r ≤ i := by
    by_contra hlt
    have hnil := h.moved r hr i b (by omega) hi
    simp [hnil] at heb
  have hisize : i < d.ht0.size := (List.getElem?_eq_some_iff.mp hi).1
  have hsome : ((d.ht0.buckets.drop r).findIdx? fun b => !b.isEmpty).isSome := by
    rw [List.findIdx?_isSome, List.any_eq_true]
    refine ⟨b, List.mem_of_getElem? (i := i - r) ?_, ?_⟩
    · rw [List.getElem?_drop, Nat.add_sub_cancel' hri]
      exact hi
    · simp [List.ne_nil_of_mem heb]
  obtain ⟨j, hj⟩ := Option.isSome_iff_exists.mp hsome
  obtain ⟨hjlt, hjne, hjbefore⟩ := List.findIdx?_eq_some_iff_getElem.mp hj
  have hjsize : r + j < d.ht0.buckets.length := by
    rw [List.length_drop] at hjlt
    omega
  refine ⟨by omega, j, d.ht0.buckets[r + j], hj, List.getElem?_eq_getElem hjsize, ?_⟩
  intro i' c hi' hc
  by_cases hlt : i' < r
  · exact h.moved r hr i' c hlt hc
  · have hnot := hjbefore (i' - r) (by omega)
    obtain ⟨hlen, rfl⟩ := List.getElem?_eq_some_iff.mp hc
    rw [List.getElem_drop] at hnot
    simpa [Nat.add_sub_cancel' (Nat.le_of_not_lt hlt)] using hnot

theorem rehashBucket (h : d.Holds hash m) {r : ℕ} (hr : d.rehashidx = some r) :
    ∃ d' more, rehashBucket hash d r = some (d', more) ∧ d'.Holds hash m ∧ d'.ht0.size ≠ 0 ∧
      d'.iterators = d.iterators := by
  obtain ⟨hs0, hs1⟩ := h.allocated (by rw [hr]; rfl)
  rw [LolStreams.rehashBucket]
  by_cases hused : d.ht0.used = 0
  · have hentries := (used_eq_zero_iff h.placed0).mp hused
    refine ⟨_, _, if_pos hused, ?_, hs1, rfl⟩
    exact
      { placed0 := h.placed1
        placed1 := Table.placed_empty
        graph := by
          have hgraph := h.graph
          rw [hentries, List.nil_append] at hgraph
          exact hgraph.perm (by simp [Table.entries, Table.empty])
        pow0 := h.pow1
        pow1 := fun hne => absurd rfl hne
        idle := fun _ => rfl
        allocated := fun hbusy => by cases hbusy
        moved := fun r hr => by cases hr }
  · obtain ⟨hlt, j, b, hj, hb, hbefore⟩ := h.exists_next hr hused
    obtain ⟨t, ht, hpt, hst, het⟩ := foldlM_linkEntry b h.placed1 hs1
    have hperm := Table.entries_setBucket hb [] (d.ht0.used - b.length)
    have hcount := h.placed0.used_eq
    have hlength := hperm.length_eq
    simp only [List.length_append, List.length_nil, Nat.zero_add] at hlength
    refine ⟨⟨d.ht0.setBucket (r + j) [] (d.ht0.used - b.length), t, some (r + j + 1),
      d.iterators⟩, true, ?_, ?_, ?_, rfl⟩
    · rw [if_neg hused, if_neg (by omega), hj]
      simp only [Option.bind_eq_bind, Option.bind_some, hb, ht]
    · exact
        { placed0 := by
            apply h.placed0.setBucket hb
            · simp
            · rw [List.length_nil]
              omega
          placed1 := hpt
          graph := by
            have hmove := hperm.append_right d.ht1.entries
            rw [List.append_assoc] at hmove
            exact h.graph.perm ((het.append_left _).trans hmove)
          pow0 := fun _ => by
            rw [Table.size_setBucket]
            exact h.pow0 hs0
          pow1 := fun _ => by
            rw [hst]
            exact h.pow1 hs1
          idle := fun hnone => by cases hnone
          allocated := fun _ => by
            rw [Table.size_setBucket, hst]
            exact ⟨hs0, hs1⟩
          moved := fun r' hr' i c hi hc => by
            cases hr'
            have hc' : (d.ht0.buckets.set (r + j) [])[i]? = some c := hc
            by_cases hij : r + j = i
            · subst hij
              rw [List.getElem?_set_self (List.getElem?_eq_some_iff.mp hb).1] at hc'
              exact (Option.some.inj hc').symm
            · rw [List.getElem?_set_ne hij] at hc'
              exact hbefore i c (by omega) hc' }
    · rw [Table.size_setBucket]
      exact hs0

theorem rehash (h : d.Holds hash m) (n : ℕ) :
    ∃ d' more, dictRehash hash d n = some (d', more) ∧ d'.Holds hash m ∧
      (d.ht0.size ≠ 0 → d'.ht0.size ≠ 0) ∧ d'.iterators = d.iterators := by
  induction n generalizing d with
  | zero => exact ⟨d, _, rfl, h, id, rfl⟩
  | succ n ih =>
    rw [dictRehash]
    cases hr : d.rehashidx with
    | none => exact ⟨d, false, rfl, h, id, rfl⟩
    | some r =>
      obtain ⟨d', more, hd', hh, hsd, hi⟩ := h.rehashBucket hr
      simp only [hd', Option.bind_eq_bind, Option.bind_some]
      cases more with
      | false => exact ⟨d', false, rfl, hh, fun _ => hsd, hi⟩
      | true =>
        obtain ⟨d'', more', hd'', hh', hsd', hi'⟩ := ih hh
        exact ⟨d'', more', hd'', hh', fun _ => hsd' hsd, hi'.trans hi⟩

theorem moveOn (h : d.Holds hash m) :
    ∃ d', moveOn hash d = some d' ∧ d'.Holds hash m ∧ (d.ht0.size ≠ 0 → d'.ht0.size ≠ 0) ∧
      d'.iterators = d.iterators := by
  rw [LolStreams.moveOn]
  by_cases hbusy : dictIsRehashing d = true
  · rw [if_pos hbusy, dictRehashStep]
    by_cases hit : d.iterators = 0
    · obtain ⟨d', more, hd', hh, hsd, hi⟩ := h.rehash 1
      rw [if_pos hit, hd']
      exact ⟨d', rfl, hh, hsd, hi⟩
    · rw [if_neg hit]
      exact ⟨d, rfl, h, id, rfl⟩
  · rw [if_neg hbusy]
    exact ⟨d, rfl, h, id, rfl⟩

end Dict.Holds

/-! ### Keys -/

namespace Dict.Holds

variable {d : Dict κ β} {m : κ → Option β}

theorem nodup_bucket {t : Table κ β} {i : ℕ} {b : List (κ × β)} (hb : t.buckets[i]? = some b)
    (h : (t.entries.map Prod.fst).Nodup) : (b.map Prod.fst).Nodup := by
  have hsub : b.Sublist t.entries := List.sublist_flatten_of_mem (List.mem_of_getElem? hb)
  exact h.sublist (hsub.map Prod.fst)

theorem nodup0 (h : d.Holds hash m) : (d.ht0.entries.map Prod.fst).Nodup :=
  h.graph.nodup.sublist ((List.sublist_append_left _ _).map Prod.fst)

theorem nodup1 (h : d.Holds hash m) : (d.ht1.entries.map Prod.fst).Nodup :=
  h.graph.nodup.sublist ((List.sublist_append_right _ _).map Prod.fst)

theorem map_eq_some_iff (h : d.Holds hash m) (k : κ) (v : β) :
    m k = some v ↔ (k, v) ∈ d.ht0.entries ∨ (k, v) ∈ d.ht1.entries := by
  rw [← h.graph.mem_iff, List.mem_append]

theorem map_of_size_eq_zero (h : d.Holds hash m) (hs : d.ht0.size = 0) (k : κ) :
    m k = none := by
  have hidle : d.rehashidx = none := by
    by_contra hne
    exact (h.allocated (Option.isSome_iff_ne_none.mpr hne)).1 hs
  apply Option.eq_none_iff_forall_ne_some.mpr
  intro v hv
  rw [h.map_eq_some_iff, h.idle hidle, entries_of_size_eq_zero hs] at hv
  simp [Table.entries, Table.empty] at hv

/-! ### Changing a chain -/

variable {m' : κ → Option β} {i used : ℕ} {b b' : List (κ × β)}

theorem set0 (h : d.Holds hash m) (hb : d.ht0.buckets[i]? = some b)
    (hmoved : d.rehashidx = none ∨ b ≠ [])
    (hindex : ∀ e ∈ b', d.ht0.index (dictHashKey hash) e.1 = i)
    (hused : used + b.length = d.ht0.used + b'.length)
    (hgraph : Graph ((d.ht0.setBucket i b' used).entries ++ d.ht1.entries) m') :
    ({ d with ht0 := d.ht0.setBucket i b' used } : Dict κ β).Holds hash m' where
  placed0 := h.placed0.setBucket hb hindex hused
  placed1 := h.placed1
  graph := hgraph
  pow0 hs := by
    rw [Table.size_setBucket] at hs ⊢
    exact h.pow0 hs
  pow1 := h.pow1
  idle := h.idle
  allocated hbusy := by
    rw [Table.size_setBucket]
    exact h.allocated hbusy
  moved r hr i' c hi' hc := by
    have hc' : (d.ht0.buckets.set i b')[i']? = some c := hc
    have hr' : d.rehashidx = some r := hr
    by_cases hii : i = i'
    · subst hii
      rcases hmoved with hnone | hne
      · rw [hnone] at hr'
        cases hr'
      · exact absurd (h.moved r hr' i b hi' hb) hne
    · rw [List.getElem?_set_ne hii] at hc'
      exact h.moved r hr' i' c hi' hc'

theorem set1 (h : d.Holds hash m) (hbusy : dictIsRehashing d = true)
    (hb : d.ht1.buckets[i]? = some b)
    (hindex : ∀ e ∈ b', d.ht1.index (dictHashKey hash) e.1 = i)
    (hused : used + b.length = d.ht1.used + b'.length)
    (hgraph : Graph (d.ht0.entries ++ (d.ht1.setBucket i b' used).entries) m') :
    ({ d with ht1 := d.ht1.setBucket i b' used } : Dict κ β).Holds hash m' where
  placed0 := h.placed0
  placed1 := h.placed1.setBucket hb hindex hused
  graph := hgraph
  pow0 := h.pow0
  pow1 hs := by
    rw [Table.size_setBucket] at hs ⊢
    exact h.pow1 hs
  idle hnone := by
    have hnone' : d.rehashidx = none := hnone
    simp [dictIsRehashing, hnone'] at hbusy
  allocated hb := by
    rw [Table.size_setBucket]
    exact h.allocated hb
  moved := h.moved

theorem expandIfNeeded_spec (h : d.Holds hash m) (canResize : Bool) :
    ∃ d', dictExpandIfNeeded canResize d = (d', true) ∧ d'.Holds hash m ∧ d'.ht0.size ≠ 0 ∧
      d'.iterators = d.iterators := by
  have hholds := h.expandIfNeeded canResize
  rw [dictExpandIfNeeded] at hholds ⊢
  split_ifs at hholds ⊢ with hbusy hs hfull
  · exact ⟨d, rfl, h, (h.allocated hbusy).1, rfl⟩
  · have hused : d.ht0.used = 0 :=
      (used_eq_zero_iff h.placed0).mpr (entries_of_size_eq_zero hs)
    have hexpand : dictExpand d 4 = ({ d with ht0 := .ofSize (dictNextPower 4) }, true) := by
      rw [dictExpand, if_neg (by simp [hbusy, hused]), if_pos hs]
    rw [hexpand] at hholds ⊢
    exact ⟨_, rfl, hholds, by rw [Table.size_ofSize]; exact dictNextPower_ne_zero 4, rfl⟩
  · have hexpand : dictExpand d (d.ht0.used * 2) =
        ({ d with ht1 := .ofSize (dictNextPower (d.ht0.used * 2)), rehashidx := some 0 }, true) := by
      have hle : ¬ d.ht0.used * 2 < d.ht0.used := by omega
      rw [dictExpand, if_neg (by simp [hbusy, hle]), if_neg hs]
    rw [hexpand] at hholds ⊢
    exact ⟨_, rfl, hholds, hs, rfl⟩
  · exact ⟨d, rfl, h, hs, rfl⟩

theorem isRehashing_of_mem (h : d.Holds hash m) {e : κ × β} (he : e ∈ d.ht1.entries) :
    dictIsRehashing d = true := by
  by_contra hidle
  have hnone : d.rehashidx = none := by simpa [dictIsRehashing] using hidle
  rw [h.idle hnone] at he
  simp [Table.entries, Table.empty] at he

/-! ### Operations -/

variable [DecidableEq κ]

/-- What a chain of the first table holds of a key. -/
theorem lookup0 (h : d.Holds hash m) {k : κ} {b : List (κ × β)}
    (hb : d.ht0.buckets[d.ht0.index (dictHashKey hash) k]? = some b) (v : β) :
    b.lookup k = some v ↔ (k, v) ∈ d.ht0.entries :=
  (lookup_eq_some_iff (nodup_bucket hb h.nodup0) k v).trans (h.placed0.mem_bucket_iff hb v)

theorem lookup1 (h : d.Holds hash m) {k : κ} {b : List (κ × β)}
    (hb : d.ht1.buckets[d.ht1.index (dictHashKey hash) k]? = some b) (v : β) :
    b.lookup k = some v ↔ (k, v) ∈ d.ht1.entries :=
  (lookup_eq_some_iff (nodup_bucket hb h.nodup1) k v).trans (h.placed1.mem_bucket_iff hb v)

/-- A chain that has the key stands in one of the tables. -/
theorem chain_cases (h : d.Holds hash m) (hs : d.ht0.size ≠ 0) (k : κ) :
    ∃ b, d.ht0.buckets[d.ht0.index (dictHashKey hash) k]? = some b ∧
      ((b.lookup k = m k ∧ (m k).isSome) ∨
        b.lookup k = none ∧ (dictIsRehashing d = false ∧ m k = none ∨
          dictIsRehashing d = true ∧
            ∃ c, d.ht1.buckets[d.ht1.index (dictHashKey hash) k]? = some c ∧
              c.lookup k = m k)) := by
  obtain ⟨b, hb⟩ := Table.exists_bucket (dictHashKey hash) hs k
  refine ⟨b, hb, ?_⟩
  cases hl : b.lookup k with
  | some v =>
    have hv := (h.map_eq_some_iff k v).mpr (.inl ((h.lookup0 hb v).mp hl))
    exact .inl ⟨hv.symm, by simp [hv]⟩
  | none =>
    have hno : ∀ v, (k, v) ∉ d.ht0.entries := by
      intro v hv
      rw [← h.lookup0 hb, hl] at hv
      cases hv
    right
    refine ⟨rfl, ?_⟩
    cases hbusy : dictIsRehashing d with
    | true =>
      obtain ⟨c, hc⟩ := Table.exists_bucket (dictHashKey hash) (h.allocated hbusy).2 k
      right
      refine ⟨rfl, c, hc, ?_⟩
      apply Option.ext
      intro v
      rw [h.lookup1 hc, h.map_eq_some_iff, or_iff_right (hno v)]
    | false =>
      left
      refine ⟨rfl, ?_⟩
      apply Option.eq_none_iff_forall_ne_some.mpr
      intro v hv
      rw [h.map_eq_some_iff, or_iff_right (hno v)] at hv
      simp [h.isRehashing_of_mem hv] at hbusy

theorem findEntry (h : d.Holds hash m) (hs : d.ht0.size ≠ 0) (k : κ) :
    findEntry hash d k = some (m k) := by
  obtain ⟨b, hb, hcases⟩ := h.chain_cases hs k
  rw [LolStreams.findEntry, hb]
  rcases hcases with ⟨hl, hm⟩ | ⟨hl, ⟨hidle, hm⟩ | ⟨hbusy, c, hc, hlc⟩⟩
  · obtain ⟨v, hv⟩ := Option.isSome_iff_exists.mp hm
    simp [hl, hv]
  · simp [hl, hidle, hm]
  · simp [hl, hbusy, hc, hlc]

theorem find (h : d.Holds hash m) (k : κ) :
    ∃ d', dictFind hash d k = some (d', m k) ∧ d'.Holds hash m ∧ d'.iterators = d.iterators ∧
      (d.ht0.size ≠ 0 → d'.ht0.size ≠ 0) := by
  rw [dictFind]
  by_cases hs : d.ht0.size = 0
  · rw [if_pos hs, h.map_of_size_eq_zero hs k]
    exact ⟨d, rfl, h, rfl, id⟩
  · obtain ⟨d', hd', hh, hsd, hi⟩ := h.moveOn
    rw [if_neg hs, hd']
    simp only [Option.bind_eq_bind, Option.bind_some, hh.findEntry (hsd hs) k]
    exact ⟨d', rfl, hh, hi, hsd⟩

theorem add (h : d.Holds hash m) (canResize : Bool) (k : κ) (v : β) :
    ∃ d', dictAdd hash canResize d k v = some (d', (m k).isNone) ∧
      d'.Holds hash (if (m k).isNone then Function.update m k (some v) else m) ∧
      d'.iterators = d.iterators ∧ d'.ht0.size ≠ 0 := by
  obtain ⟨d₁, hd₁, hh₁, -, hi₁⟩ := h.moveOn
  obtain ⟨d₂, hd₂, hh₂, hs₂, hi₂⟩ := hh₁.expandIfNeeded_spec canResize
  rw [dictAdd, hd₁]
  simp only [Option.bind_eq_bind, Option.bind_some, dictKeyIndex, hd₂, if_true,
    hh₂.findEntry hs₂ k]
  cases hm : m k with
  | some v' => exact ⟨d₂, rfl, by simpa using hh₂, hi₂.trans hi₁, hs₂⟩
  | none =>
    by_cases hbusy : dictIsRehashing d₂ = true
    · obtain ⟨b, hb⟩ := Table.exists_bucket (dictHashKey hash) (hh₂.allocated hbusy).2 k
      simp only [hbusy, if_true, Option.bind_some, hb]
      refine ⟨_, rfl, ?_, hi₂.trans hi₁, hs₂⟩
      apply hh₂.set1 hbusy hb
      · intro e he
        rcases List.mem_cons.mp he with rfl | he
        · rfl
        · exact hh₂.placed1.index_eq _ b hb e he
      · rw [List.length_cons]
        omega
      · have hcons := Table.entries_setBucket_cons hb (.refl ((k, v) :: b)) (d₂.ht1.used + 1) 0
        rw [Table.setBucket_self hb] at hcons
        exact (hh₂.graph.cons hm v).perm ((hcons.append_left _).trans List.perm_middle)
    · have hidle : d₂.rehashidx = none := by simpa [dictIsRehashing] using hbusy
      obtain ⟨b, hb⟩ := Table.exists_bucket (dictHashKey hash) hs₂ k
      simp only [hbusy, Bool.false_eq_true, if_false, Option.bind_some, hb]
      refine ⟨_, rfl, ?_, hi₂.trans hi₁, by rwa [Table.size_setBucket]⟩
      apply hh₂.set0 hb (.inl hidle)
      · intro e he
        rcases List.mem_cons.mp he with rfl | he
        · rfl
        · exact hh₂.placed0.index_eq _ b hb e he
      · rw [List.length_cons]
        omega
      · have hcons := Table.entries_setBucket_cons hb (.refl ((k, v) :: b)) (d₂.ht0.used + 1) 0
        rw [Table.setBucket_self hb] at hcons
        exact (hh₂.graph.cons hm v).perm (hcons.append_right _)

/-- An entry leaves its chain. -/
theorem unlink0 (h : d.Holds hash m) {k : κ} {b : List (κ × β)}
    (hb : d.ht0.buckets[d.ht0.index (dictHashKey hash) k]? = some b)
    (hl : (b.lookup k).isSome) :
    (⟨d.ht0.setBucket (d.ht0.index (dictHashKey hash) k) (unlink k b) (d.ht0.used - 1), d.ht1,
      d.rehashidx, d.iterators⟩ : Dict κ β).Holds hash (Function.update m k none) := by
  obtain ⟨v, hv⟩ := Option.isSome_iff_exists.mp hl
  have hcons := Table.entries_setBucket_cons hb (perm_unlink hv) 0 (d.ht0.used - 1)
  rw [Table.setBucket_self hb] at hcons
  have hcount := hcons.length_eq
  have hlength := length_unlink hl
  have hused := h.placed0.used_eq
  rw [List.length_cons] at hcount
  apply h.set0 hb
  · right
    rintro rfl
    cases hl
  · intro e he
    exact h.placed0.index_eq _ b hb e (List.mem_of_mem_eraseP he)
  · omega
  · exact (h.graph.perm (hcons.append_right _).symm).of_cons

theorem unlink1 (h : d.Holds hash m) (hbusy : dictIsRehashing d = true) {k : κ}
    {b : List (κ × β)} (hb : d.ht1.buckets[d.ht1.index (dictHashKey hash) k]? = some b)
    (hl : (b.lookup k).isSome) :
    (⟨d.ht0, d.ht1.setBucket (d.ht1.index (dictHashKey hash) k) (unlink k b) (d.ht1.used - 1),
      d.rehashidx, d.iterators⟩ : Dict κ β).Holds hash (Function.update m k none) := by
  obtain ⟨v, hv⟩ := Option.isSome_iff_exists.mp hl
  have hcons := Table.entries_setBucket_cons hb (perm_unlink hv) 0 (d.ht1.used - 1)
  rw [Table.setBucket_self hb] at hcons
  have hcount := hcons.length_eq
  have hlength := length_unlink hl
  have hused := h.placed1.used_eq
  rw [List.length_cons] at hcount
  apply h.set1 hbusy hb
  · intro e he
    exact h.placed1.index_eq _ b hb e (List.mem_of_mem_eraseP he)
  · omega
  · have hmiddle := (hcons.append_left d.ht0.entries).trans List.perm_middle
    exact (h.graph.perm hmiddle.symm).of_cons

theorem delete (h : d.Holds hash m) (k : κ) :
    ∃ d', dictGenericDelete hash d k = some (d', (m k).isSome) ∧
      d'.Holds hash (Function.update m k none) ∧ d'.iterators = d.iterators := by
  rw [dictGenericDelete]
  by_cases hs : d.ht0.size = 0
  · have hk := h.map_of_size_eq_zero hs k
    refine ⟨d, by rw [if_pos hs, hk]; rfl, ?_, rfl⟩
    rwa [← hk, Function.update_eq_self]
  · obtain ⟨d₁, hd₁, hh₁, hs₁, hi₁⟩ := h.moveOn
    obtain ⟨b, hb, hcases⟩ := hh₁.chain_cases (hs₁ hs) k
    rw [if_neg hs, hd₁]
    simp only [Option.bind_eq_bind, Option.bind_some, hb]
    rcases hcases with ⟨hl, hm⟩ | ⟨hl, ⟨hidle, hm⟩ | ⟨hbusy, c, hc, hlc⟩⟩
    · rw [← hl] at hm
      rw [← hl, if_pos hm, hm]
      exact ⟨_, rfl, hh₁.unlink0 hb hm, hi₁⟩
    · rw [hl, hidle]
      refine ⟨d₁, by simp [hm], ?_, hi₁⟩
      rwa [← hm, Function.update_eq_self]
    · rw [hl, hbusy]
      simp only [Option.isSome_none, Bool.false_eq_true, if_false, if_true, hc,
        Option.bind_some, hlc]
      cases hm : m k with
      | none =>
        refine ⟨d₁, rfl, ?_, hi₁⟩
        rwa [← hm, Function.update_eq_self]
      | some v =>
        have hfound : (c.lookup k).isSome := by rw [hlc, hm]; rfl
        exact ⟨_, rfl, hh₁.unlink1 hbusy hc hfound, hi₁⟩

theorem setVal (h : d.Holds hash m) (hs : d.ht0.size ≠ 0) {k : κ} (hk : (m k).isSome) (v : β) :
    ∃ d', dictSetVal hash d k v = some d' ∧ d'.Holds hash (Function.update m k (some v)) ∧
      d'.iterators = d.iterators := by
  obtain ⟨b, hb, hcases⟩ := h.chain_cases hs k
  rw [dictSetVal]
  simp only [Option.bind_eq_bind, Option.bind_some, hb]
  rcases hcases with ⟨hl, hm⟩ | ⟨hl, ⟨hidle, hm⟩ | ⟨hbusy, c, hc, hlc⟩⟩
  · rw [← hl] at hm
    obtain ⟨v₀, hv₀⟩ := Option.isSome_iff_exists.mp hm
    have hold := Table.entries_setBucket_cons hb (perm_unlink hv₀) 0 0
    have hnew := Table.entries_setBucket_cons hb (perm_relink hm v) d.ht0.used 0
    rw [Table.setBucket_self hb] at hold
    rw [if_pos hm]
    refine ⟨_, rfl, ?_, rfl⟩
    apply h.set0 hb
    · right
      rintro rfl
      cases hm
    · intro e he
      rcases mem_relink hm he with rfl | he
      · rfl
      · exact h.placed0.index_eq _ b hb e he
    · rw [length_relink hm]
    · have hgraph := (h.graph.perm (hold.append_right _).symm).replace v
      exact hgraph.perm (hnew.append_right _)
  · rw [hm] at hk
    cases hk
  · rw [hl]
    rw [← hlc] at hk
    obtain ⟨v₀, hv₀⟩ := Option.isSome_iff_exists.mp hk
    have hold := Table.entries_setBucket_cons hc (perm_unlink hv₀) 0 0
    have hnew := Table.entries_setBucket_cons hc (perm_relink hk v) d.ht1.used 0
    rw [Table.setBucket_self hc] at hold
    simp only [Option.isSome_none, Bool.false_eq_true, if_false, hc, Option.bind_some]
    refine ⟨_, rfl, ?_, rfl⟩
    apply h.set1 hbusy hc
    · intro e he
      rcases mem_relink hk he with rfl | he
      · rfl
      · exact h.placed1.index_eq _ c hc e he
    · rw [length_relink hk]
    · have hmiddle := (hold.append_left d.ht0.entries).trans List.perm_middle
      have hgraph := (h.graph.perm hmiddle.symm).replace v
      exact hgraph.perm ((hnew.append_left _).trans List.perm_middle)

theorem replace (h : d.Holds hash m) (canResize : Bool) (k : κ) (v : β) :
    ∃ d', dictReplace hash canResize d k v = some (d', (m k).isNone) ∧
      d'.Holds hash (Function.update m k (some v)) ∧ d'.iterators = d.iterators := by
  obtain ⟨d₁, hd₁, hh₁, hi₁, hs₁⟩ := h.add canResize k v
  rw [dictReplace, hd₁]
  simp only [Option.bind_eq_bind, Option.bind_some]
  cases hm : m k with
  | none =>
    rw [hm] at hh₁
    exact ⟨d₁, rfl, hh₁, hi₁⟩
  | some v₀ =>
    rw [hm] at hh₁
    have hh : d₁.Holds hash m := hh₁
    have hk : (m k).isSome := by
      rw [hm]
      rfl
    obtain ⟨d₂, hd₂, hh₂, hi₂, hs₂⟩ := hh.find k
    obtain ⟨d₃, hd₃, hh₃, hi₃⟩ := hh₂.setVal (hs₂ hs₁) hk v
    refine ⟨d₃, ?_, hh₃, hi₃.trans (hi₂.trans hi₁)⟩
    simp [hd₂, hm, hd₃]

end Dict.Holds

/-! ### Runs -/

/-- What is done to a dictionary. The last five are the work of the server and of its
iterators. -/
inductive DictOp (κ β : Type)
  | add (k : κ) (v : β)
  | replace (k : κ) (v : β)
  | delete (k : κ)
  | find (k : κ)
  | clear
  | expand (size : ℕ)
  | resize
  | rehash (n : ℕ)
  | allowResize (allowed : Bool)
  | iterators (n : ℕ)

inductive DictReply (β : Type)
  | done
  | flag (b : Bool)
  | value (v : Option β)

/-- A dictionary, and the global `dict_can_resize`. -/
structure DictState (κ β : Type) where
  dict : Dict κ β
  canResize : Bool

section

variable [DecidableEq κ]

def DictState.step (hash : κ → UInt32) (s : DictState κ β) :
    DictOp κ β → Option (DictState κ β × DictReply β)
  | .add k v =>
    (dictAdd hash s.canResize s.dict k v).map fun r => (⟨r.1, s.canResize⟩, .flag r.2)
  | .replace k v =>
    (dictReplace hash s.canResize s.dict k v).map fun r => (⟨r.1, s.canResize⟩, .flag r.2)
  | .delete k =>
    (dictGenericDelete hash s.dict k).map fun r => (⟨r.1, s.canResize⟩, .flag r.2)
  | .find k => (dictFind hash s.dict k).map fun r => (⟨r.1, s.canResize⟩, .value r.2)
  | .clear => some (⟨dictEmpty s.dict, s.canResize⟩, .done)
  | .expand size => some (⟨(dictExpand s.dict size).1, s.canResize⟩, .done)
  | .resize => some (⟨(dictResize s.canResize s.dict).1, s.canResize⟩, .done)
  | .rehash n => (dictRehash hash s.dict n).map fun r => (⟨r.1, s.canResize⟩, .done)
  | .allowResize allowed => some (⟨s.dict, allowed⟩, .done)
  | .iterators n => some (⟨{ s.dict with iterators := n }, s.canResize⟩, .done)

def DictState.run (hash : κ → UInt32) (s : DictState κ β) :
    List (DictOp κ β) → Option (DictState κ β × List (DictReply β))
  | [] => some (s, [])
  | op :: ops => do
    let (t, reply) ← s.step hash op
    let (u, replies) ← t.run hash ops
    some (u, reply :: replies)

/-- The same on a finite map. -/
def mapStep (m : κ → Option β) : DictOp κ β → (κ → Option β) × DictReply β
  | .add k v =>
    (if (m k).isNone then Function.update m k (some v) else m, .flag (m k).isNone)
  | .replace k v => (Function.update m k (some v), .flag (m k).isNone)
  | .delete k => (Function.update m k none, .flag (m k).isSome)
  | .find k => (m, .value (m k))
  | .clear => (fun _ => none, .done)
  | _ => (m, .done)

def mapRun (m : κ → Option β) : List (DictOp κ β) → (κ → Option β) × List (DictReply β)
  | [] => (m, [])
  | op :: ops =>
    ((mapRun (mapStep m op).1 ops).1, (mapStep m op).2 :: (mapRun (mapStep m op).1 ops).2)

theorem step_refines {s : DictState κ β} {m : κ → Option β} (h : s.dict.Holds hash m)
    (op : DictOp κ β) :
    ∃ t, s.step hash op = some (t, (mapStep m op).2) ∧ t.dict.Holds hash (mapStep m op).1 := by
  cases op with
  | add k v =>
    obtain ⟨d, hd, hh, -, -⟩ := h.add s.canResize k v
    exact ⟨⟨d, s.canResize⟩, by rw [DictState.step, hd]; rfl, hh⟩
  | replace k v =>
    obtain ⟨d, hd, hh, -⟩ := h.replace s.canResize k v
    exact ⟨⟨d, s.canResize⟩, by rw [DictState.step, hd]; rfl, hh⟩
  | delete k =>
    obtain ⟨d, hd, hh, -⟩ := h.delete k
    exact ⟨⟨d, s.canResize⟩, by rw [DictState.step, hd]; rfl, hh⟩
  | find k =>
    obtain ⟨d, hd, hh, -, -⟩ := h.find k
    exact ⟨⟨d, s.canResize⟩, by rw [DictState.step, hd]; rfl, hh⟩
  | clear => exact ⟨_, rfl, holds_dictCreate⟩
  | expand size => exact ⟨_, rfl, h.expand size⟩
  | resize => exact ⟨_, rfl, h.resize s.canResize⟩
  | rehash n =>
    obtain ⟨d, more, hd, hh, -, -⟩ := h.rehash n
    exact ⟨⟨d, s.canResize⟩, by rw [DictState.step, hd]; rfl, hh⟩
  | allowResize allowed => exact ⟨_, rfl, h⟩
  | iterators n =>
    exact ⟨_, rfl, ⟨h.placed0, h.placed1, h.graph, h.pow0, h.pow1, h.idle, h.allocated, h.moved⟩⟩

/-- Whatever is done to a dictionary, it answers like the map it stands for. -/
theorem run_refines {s : DictState κ β} {m : κ → Option β} (h : s.dict.Holds hash m)
    (ops : List (DictOp κ β)) :
    ∃ t, s.run hash ops = some (t, (mapRun m ops).2) ∧ t.dict.Holds hash (mapRun m ops).1 := by
  induction ops generalizing s m with
  | nil => exact ⟨s, rfl, h⟩
  | cons op ops ih =>
    obtain ⟨t, ht, hh⟩ := step_refines h op
    obtain ⟨u, hu, hh'⟩ := ih hh
    refine ⟨u, ?_, hh'⟩
    rw [DictState.run, ht]
    simp only [Option.bind_eq_bind, Option.bind_some, hu]
    rfl

theorem dictSize_eq {d : Dict κ β} {m : κ → Option β} (h : d.Holds hash m) (ks : Finset κ)
    (hks : ∀ k, k ∈ ks ↔ (m k).isSome) : dictSize d = ks.card := by
  have hkeys : ((d.ht0.entries ++ d.ht1.entries).map Prod.fst).toFinset = ks := by
    ext k
    rw [List.mem_toFinset, h.graph.mem_keys_iff, hks]
  rw [dictSize, h.placed0.used_eq, h.placed1.used_eq, ← List.length_append, ← hkeys,
    List.toFinset_card_of_nodup h.graph.nodup, List.length_map]

/-- From an empty dictionary no operation fails, the replies are those of a finite map, and
its keys are counted. -/
theorem dictionary_is_a_map (hash : κ → UInt32) (canResize : Bool) (ops : List (DictOp κ β)) :
    ∃ t, (⟨dictCreate, canResize⟩ : DictState κ β).run hash ops =
        some (t, (mapRun (fun _ => none) ops).2) ∧
      ∀ ks : Finset κ, (∀ k, k ∈ ks ↔ ((mapRun (fun _ => none) ops).1 k).isSome) →
        dictSize t.dict = ks.card := by
  have hcreate : (dictCreate : Dict κ β).Holds hash fun _ => none := holds_dictCreate
  obtain ⟨t, ht, hh⟩ := run_refines (s := ⟨dictCreate, canResize⟩) hcreate ops
  exact ⟨t, ht, fun ks hks => dictSize_eq hh ks hks⟩

end

end LolStreams
