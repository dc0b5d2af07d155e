import Mathlib

/-! Hash tables with chaining. A key is placed by its hash under the mask of the table. The
entries of a table are what its buckets hold, in any order, and stand for a finite map if no
key occurs twice. -/
namespace Chaining

variable {κ β : Type*}

/-! ### Entries -/

/-- The entries are the graph of the map. -/
structure Graph (es : List (κ × β)) (m : κ → Option β) : Prop where
  nodup : (es.map Prod.fst).Nodup
  mem_iff : ∀ k v, (k, v) ∈ es ↔ m k = some v

namespace Graph

variable {es es' : List (κ × β)} {m : κ → Option β} {k : κ} {v : β}

theorem nil : Graph ([] : List (κ × β)) fun _ => none := ⟨List.nodup_nil, by simp⟩

theorem perm (h : Graph es m) (hp : es'.Perm es) : Graph es' m :=
  ⟨(hp.map Prod.fst).nodup_iff.mpr h.nodup, fun k v => hp.mem_iff.trans (h.mem_iff k v)⟩

theorem mem_keys_iff (h : Graph es m) (k : κ) : k ∈ es.map Prod.fst ↔ (m k).isSome := by
  rw [Option.isSome_iff_exists, List.mem_map]
  constructor
  · rintro ⟨⟨k', v⟩, he, rfl⟩
    exact ⟨v, (h.mem_iff k' v).mp he⟩
  · rintro ⟨v, hv⟩
    exact ⟨(k, v), (h.mem_iff k v).mpr hv, rfl⟩

theorem head (h : Graph ((k, v) :: es) m) : m k = some v :=
  (h.mem_iff k v).mp List.mem_cons_self

/-- No key occurs in two parts. -/
theorem not_mem_right {fs : List (κ × β)} (h : Graph (es ++ fs) m) (v : β) (hv : (k, v) ∈ es)
    (w : β) : (k, w) ∉ fs := by
  intro hw
  have hnodup := h.nodup
  rw [List.map_append] at hnodup
  exact (List.nodup_append.mp hnodup).2.2 k (List.mem_map_of_mem hv) k (List.mem_map_of_mem hw) rfl

variable [DecidableEq κ]

theorem cons (h : Graph es m) (hk : m k = none) (v : β) :
    Graph ((k, v) :: es) (Function.update m k (some v)) := by
  have hnew : k ∉ es.map Prod.fst := by
    rw [h.mem_keys_iff, hk]
    simp
  refine ⟨List.nodup_cons.mpr ⟨hnew, h.nodup⟩, fun k' v' => ?_⟩
  rw [List.mem_cons, h.mem_iff, Prod.mk.injEq]
  by_cases hkk : k' = k
  · subst hkk
    simp [hk, eq_comm]
  · simp [hkk]

theorem of_cons (h : Graph ((k, v) :: es) m) : Graph es (Function.update m k none) := by
  obtain ⟨hnew, hnodup⟩ := List.nodup_cons.mp h.nodup
  refine ⟨hnodup, fun k' v' => ?_⟩
  have hmem := h.mem_iff k' v'
  rw [List.mem_cons, Prod.mk.injEq] at hmem
  by_cases hkk : k' = k
  · subst hkk
    have hno : (k', v') ∉ es := fun he => hnew (List.mem_map.mpr ⟨_, he, rfl⟩)
    simp [hno]
  · rw [Function.update_of_ne hkk, ← hmem]
    simp [hkk]

/-- The value of one entry changes. -/
theorem replace (h : Graph ((k, v) :: es) m) (v' : β) :
    Graph ((k, v') :: es) (Function.update m k (some v')) := by
  have hrest := h.of_cons.cons (Function.update_self k none m) v'
  rwa [Function.update_idem] at hrest

end Graph

/-! ### Chains -/

theorem lookup_eq_some_iff [DecidableEq κ] {es : List (κ × β)} (h : (es.map Prod.fst).Nodup)
    (k : κ) (v : β) : es.lookup k = some v ↔ (k, v) ∈ es := by
  induction es with
  | nil => simp
  | cons e es ih =>
    obtain ⟨a, b⟩ := e
    obtain ⟨hnew, hnodup⟩ := List.nodup_cons.mp h
    rw [List.lookup_cons, List.mem_cons, Prod.mk.injEq]
    by_cases hk : k = a
    · subst hk
      have hno : (k, v) ∉ es := fun he => hnew (List.mem_map.mpr ⟨_, he, rfl⟩)
      simp [hno, eq_comm]
    · rw [beq_false_of_ne hk]
      simp [hk, ih hnodup]

/-- A chain without the entry of a key. -/
def unlink [DecidableEq κ] (k : κ) (es : List (κ × β)) : List (κ × β) :=
  es.eraseP fun e => e.1 = k

theorem perm_unlink [DecidableEq κ] {es : List (κ × β)} {k : κ} {v : β}
    (h : es.lookup k = some v) : es.Perm ((k, v) :: unlink k es) := by
  induction es with
  | nil => cases h
  | cons e es ih =>
    obtain ⟨a, b⟩ := e
    rw [List.lookup_cons] at h
    by_cases hk : k = a
    · subst hk
      rw [beq_self_eq_true] at h
      simp only [Option.some.injEq] at h
      rw [unlink, List.eraseP_cons_of_pos (by simp), h]
    · rw [beq_false_of_ne hk] at h
      rw [unlink, List.eraseP_cons_of_neg (by simp [Ne.symm hk])]
      exact ((ih h).cons (a, b)).trans (.swap (k, v) (a, b) _)

/-- The entry of a key is replaced. -/
def relink [DecidableEq κ] (k : κ) (v : β) : List (κ × β) → List (κ × β)
  | [] => []
  | e :: es => if e.1 = k then (k, v) :: es else e :: relink k v es

theorem perm_relink [DecidableEq κ] {es : List (κ × β)} {k : κ} (h : (es.lookup k).isSome)
    (v : β) : (relink k v es).Perm ((k, v) :: unlink k es) := by
  induction es with
  | nil => cases h
  | cons e es ih =>
    obtain ⟨a, b⟩ := e
    rw [List.lookup_cons] at h
    by_cases hk : k = a
    · subst hk
      rw [relink, if_pos rfl, unlink, List.eraseP_cons_of_pos (by simp)]
    · rw [beq_false_of_ne hk] at h
      rw [relink, if_neg (Ne.symm hk), unlink, List.eraseP_cons_of_neg (by simp [Ne.symm hk])]
      exact ((ih h).cons (a, b)).trans (.swap (k, v) (a, b) _)

theorem length_unlink [DecidableEq κ] {es : List (κ × β)} {k : κ}
    (h : (es.lookup k).isSome) : (unlink k es).length + 1 = es.length := by
  obtain ⟨v, hv⟩ := Option.isSome_iff_exists.mp h
  have hlength := (perm_unlink hv).length_eq
  rwa [List.length_cons, eq_comm] at hlength

theorem length_relink [DecidableEq κ] {es : List (κ × β)} {k : κ}
    (h : (es.lookup k).isSome) (v : β) : (relink k v es).length = es.length := by
  rw [(perm_relink h v).length_eq, List.length_cons, length_unlink h]

theorem mem_relink [DecidableEq κ] {es : List (κ × β)} {k : κ} (h : (es.lookup k).isSome)
    {v : β} {e : κ × β} (he : e ∈ relink k v es) : e = (k, v) ∨ e ∈ es := by
  rcases List.mem_cons.mp ((perm_relink h v).mem_iff.mp he) with rfl | he
  · exact .inl rfl
  · exact .inr (List.mem_of_mem_eraseP he)

/-! ### Tables -/

/-- No buckets at all is the table that has not been allocated. -/
structure Table (κ β : Type*) where
  buckets : List (List (κ × β))
  used : ℕ

namespace Table

def empty : Table κ β := ⟨[], 0⟩

def ofSize (n : ℕ) : Table κ β := ⟨List.replicate n [], 0⟩

variable (hash : κ → ℕ) (t : Table κ β)

def size : ℕ := t.buckets.length

def sizemask : ℕ := t.size - 1

def index (k : κ) : ℕ := hash k &&& t.sizemask

def entries : List (κ × β) := t.buckets.flatten

/-- Every entry stands in the bucket of its key, and they are counted. -/
structure Placed : Prop where
  index_eq : ∀ i b, t.buckets[i]? = some b → ∀ e ∈ b, t.index hash e.1 = i
  used_eq : t.used = t.entries.length

variable {hash t}

theorem placed_empty : (empty : Table κ β).Placed hash := ⟨by simp [empty], rfl⟩

theorem entries_ofSize (n : ℕ) : (ofSize n : Table κ β).entries = [] := by
  simp [entries, ofSize]

theorem size_ofSize (n : ℕ) : (ofSize n : Table κ β).size = n := List.length_replicate

theorem placed_ofSize (n : ℕ) : (ofSize n : Table κ β).Placed hash := by
  constructor
  · intro i b hb
    have hb' : b ∈ List.replicate n [] := List.mem_of_getElem? hb
    rw [List.eq_of_mem_replicate hb']
    simp
  · rw [entries_ofSize]
    rfl

theorem index_lt (h : t.size ≠ 0) (k : κ) : t.index hash k < t.size := by
  have hle : t.index hash k ≤ t.sizemask := Nat.and_le_right
  rw [sizemask] at hle
  omega

/-- There is a bucket for every key. -/
theorem exists_bucket (hash : κ → ℕ) (h : t.size ≠ 0) (k : κ) : ∃ b, t.buckets[t.index hash k]? = some b :=
  ⟨_, List.getElem?_eq_getElem (index_lt h k)⟩

theorem mem_entries {i : ℕ} {b : List (κ × β)} (hb : t.buckets[i]? = some b) {e : κ × β}
    (he : e ∈ b) : e ∈ t.entries :=
  List.mem_flatten.mpr ⟨b, List.mem_of_getElem? hb, he⟩

/-- The entry of a key stands in its bucket. -/
theorem Placed.mem_bucket_iff (h : t.Placed hash) {k : κ} {b : List (κ × β)}
    (hb : t.buckets[t.index hash k]? = some b) (v : β) : (k, v) ∈ b ↔ (k, v) ∈ t.entries := by
  constructor
  · exact mem_entries hb
  · intro he
    obtain ⟨b', hb', he'⟩ := List.mem_flatten.mp he
    obtain ⟨i, hi⟩ := List.getElem?_of_mem hb'
    have hindex := h.index_eq i b' hi (k, v) he'
    rw [hindex, hi] at hb
    rwa [← Option.some.inj hb]

/-! ### Changing one bucket -/

def setBucket (t : Table κ β) (i : ℕ) (b : List (κ × β)) (used : ℕ) : Table κ β :=
  ⟨t.buckets.set i b, used⟩

theorem size_setBucket (i : ℕ) (b : List (κ × β)) (used : ℕ) :
    (t.setBucket i b used).size = t.size := List.length_set

theorem entries_setBucket {i : ℕ} {b : List (κ × β)} (hb : t.buckets[i]? = some b)
    (b' : List (κ × β)) (used : ℕ) :
    ((t.setBucket i b' used).entries ++ b).Perm (b' ++ t.entries) := by
  obtain ⟨hi, rfl⟩ := List.getElem?_eq_some_iff.mp hb
  have hsplit : t.buckets = t.buckets.take i ++ t.buckets[i] :: t.buckets.drop (i + 1) := by
    rw [List.getElem_cons_drop, List.take_append_drop]
  have hset : (t.setBucket i b' used).entries =
      (t.buckets.take i ++ b' :: t.buckets.drop (i + 1)).flatten := by
    rw [entries, Table.setBucket, List.set_eq_take_append_cons_drop, if_pos hi]
  have hentries : t.entries =
      (t.buckets.take i ++ t.buckets[i] :: t.buckets.drop (i + 1)).flatten :=
    congrArg List.flatten hsplit
  rw [hset, hentries, ← Multiset.coe_eq_coe]
  simp only [List.flatten_append, List.flatten_cons, ← Multiset.coe_add]
  abel

theorem setBucket_self {i : ℕ} {b : List (κ × β)} (hb : t.buckets[i]? = some b) (used : ℕ) :
    (t.setBucket i b used).entries = t.entries := by
  obtain ⟨hi, rfl⟩ := List.getElem?_eq_some_iff.mp hb
  rw [entries, Table.setBucket, List.set_getElem_self]
  rfl

/-- One more entry in the bucket is one more entry in the table. -/
theorem entries_setBucket_cons {i : ℕ} {b b' b'' : List (κ × β)} {e : κ × β}
    (hb : t.buckets[i]? = some b) (h : b'.Perm (e :: b'')) (used used' : ℕ) :
    (t.setBucket i b' used).entries.Perm (e :: (t.setBucket i b'' used').entries) := by
  have hfirst := entries_setBucket hb b' used
  have hsecond := entries_setBucket hb b'' used'
  apply (List.perm_append_right_iff b).mp
  exact (hfirst.trans (h.append_right _)).trans (hsecond.symm.cons e)

theorem Placed.setBucket (h : t.Placed hash) {i : ℕ} {b b' : List (κ × β)} {used : ℕ}
    (hb : t.buckets[i]? = some b) (hb' : ∀ e ∈ b', t.index hash e.1 = i)
    (hused : used + b.length = t.used + b'.length) : (t.setBucket i b' used).Placed hash := by
  have hlength := (entries_setBucket hb b' used).length_eq
  rw [List.length_append, List.length_append] at hlength
  have hcount := h.used_eq
  constructor
  · intro j c hc e he
    have hindex : (t.setBucket i b' used).index hash e.1 = t.index hash e.1 := by
      rw [index, sizemask, size_setBucket]
      rfl
    rw [hindex]
    by_cases hij : i = j
    · subst hij
      have hc' : (t.buckets.set i b')[i]? = some c := hc
      rw [List.getElem?_set_self (List.getElem?_eq_some_iff.mp hb).1] at hc'
      exact hb' e (Option.some.inj hc' ▸ he)
    · have hc' : (t.buckets.set i b')[j]? = some c := hc
      rw [List.getElem?_set_ne hij] at hc'
      exact h.index_eq j c hc' e he
  · change used = _
    omega

end Table

end Chaining
