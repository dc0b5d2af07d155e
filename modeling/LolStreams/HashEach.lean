import LolStreams.OrderedMap

/-! A hash that is changed while `each` runs over it. An entry keeps its slot for as long as
it is there, a deleted one leaves the slot empty, and the loop goes from slot to slot, reading
each from the hash as it is by then. -/
namespace HashEach

variable {κ α σ : Type*} [DecidableEq κ]

abbrev Slots (κ α : Type*) := List (Option (κ × α))

def ofEntries (es : List (κ × α)) : Slots κ α := es.map some

def entries (s : Slots κ α) : List (κ × α) := s.reduceOption

def lookup (k : κ) (s : Slots κ α) : Option α := (entries s).lookup k

def delete (k : κ) (s : Slots κ α) : Slots κ α :=
  s.map fun slot => slot.filter fun e => e.1 ≠ k

/-- A key that is not there cannot be added while the loop runs. -/
def assign (k : κ) (v : α) (s : Slots κ α) : Option (Slots κ α) :=
  if k ∈ Entries.keys (entries s) then
    some (s.map fun slot => slot.map fun e => if e.1 = k then (k, v) else e)
  else none

variable (view : σ → Slots κ α) (body : κ → α → σ → Option σ)

/-- The loop from slot `i` on. The body may raise, which ends it. -/
def eachFrom : ℕ → ℕ → σ → Option σ
  | 0, _, s => some s
  | n + 1, i, s =>
    match (view s)[i]? with
    | none => some s
    | some none => eachFrom n (i + 1) s
    | some (some (k, v)) => (body k v s).bind fun s => eachFrom n (i + 1) s

def each (s : σ) : Option σ := eachFrom view body (view s).length 0 s

/-! ### One slot among the others -/

omit [DecidableEq κ] in
@[simp] theorem entries_ofEntries (es : List (κ × α)) : entries (ofEntries es) = es := by
  induction es with
  | nil => rfl
  | cons e es ih => exact congrArg (e :: ·) ih

omit [DecidableEq κ] in
@[simp] theorem entries_append (s t : Slots κ α) : entries (s ++ t) = entries s ++ entries t :=
  List.reduceOption_append s t

omit [DecidableEq κ] in
@[simp] theorem entries_some_cons (e : κ × α) (s : Slots κ α) :
    entries (some e :: s) = e :: entries s :=
  List.reduceOption_cons_of_some e s

/-- No slot holds the key. -/
def Free (k : κ) (s : Slots κ α) : Prop := k ∉ Entries.keys (entries s)

omit [DecidableEq κ] in
theorem Free.key_ne {k : κ} {s : Slots κ α} (h : Free k s) {e : κ × α} (he : some e ∈ s) :
    e.1 ≠ k := by
  intro hk
  have hm : e ∈ entries s := List.reduceOption_mem_iff.mpr he
  exact h (hk ▸ List.mem_map_of_mem hm)

theorem lookup_slot {k : κ} {v : α} {s t : Slots κ α} (hs : Free k s) :
    lookup k (s ++ some (k, v) :: t) = some v := by
  rw [lookup, entries_append, entries_some_cons]
  exact Entries.lookup_append_cons hs

omit [DecidableEq κ] in
/-- What leaves other keys alone leaves the slots alone. -/
theorem map_free {k : κ} {f : Option (κ × α) → Option (κ × α)} (hnone : f none = none)
    (hsome : ∀ e, e.1 ≠ k → f (some e) = some e) {s : Slots κ α} (h : Free k s) :
    s.map f = s := by
  have hf : ∀ slot ∈ s, f slot = id slot := by
    intro slot hm
    cases slot with
    | none => exact hnone
    | some e => exact hsome e (h.key_ne hm)
  rw [List.map_congr_left hf, List.map_id]

theorem delete_slot {k : κ} {v : α} {s t : Slots κ α} (hs : Free k s) (ht : Free k t) :
    delete k (s ++ some (k, v) :: t) = s ++ none :: t := by
  have hother : ∀ e : κ × α, e.1 ≠ k → (some e).filter (fun e => e.1 ≠ k) = some e := by
    intro e he
    simp [he]
  rw [delete, List.map_append, List.map_cons, map_free rfl hother hs, map_free rfl hother ht]
  simp

theorem assign_slot {k : κ} {v w : α} {s t : Slots κ α} (hs : Free k s) (ht : Free k t) :
    assign k w (s ++ some (k, v) :: t) = some (s ++ some (k, w) :: t) := by
  have hother : ∀ e : κ × α, e.1 ≠ k →
      (some e).map (fun e => if e.1 = k then (k, w) else e) = some e := by
    intro e he
    simp [he]
  have hk : k ∈ Entries.keys (entries (s ++ some (k, v) :: t)) := by simp
  rw [assign, if_pos hk, List.map_append, List.map_cons, map_free rfl hother hs,
    map_free rfl hother ht]
  simp

/-! ### The rule of the loop -/

variable {view body}

omit [DecidableEq κ] in
theorem eachFrom_rule {slot : κ × α → Option (κ × α)}
    {P : List (κ × α) → List (κ × α) → σ → Prop}
    (hbody : ∀ done e todo s, view s = done.map slot ++ some e :: ofEntries todo →
      P done (e :: todo) s → ∃ t, body e.1 e.2 s = some t ∧
        view t = done.map slot ++ slot e :: ofEntries todo ∧ P (done ++ [e]) todo t)
    {done todo : List (κ × α)} {s : σ} (hview : view s = done.map slot ++ ofEntries todo)
    (hp : P done todo s) :
    ∃ t, eachFrom view body todo.length done.length s = some t ∧
      view t = (done ++ todo).map slot ∧ P (done ++ todo) [] t := by
  induction todo generalizing done s with
  | nil =>
    refine ⟨s, rfl, ?_, ?_⟩
    · simpa [ofEntries] using hview
    · simpa using hp
  | cons e todo ih =>
    obtain ⟨t, ht, hview', hp'⟩ := hbody done e todo s hview hp
    have hread : (view s)[done.length]? = some (some e) := by
      rw [hview, List.getElem?_append_right (by simp)]
      simp [ofEntries]
    have hnext : view t = (done ++ [e]).map slot ++ ofEntries todo := by
      rw [hview']
      simp
    obtain ⟨u, hu, hviewu, hpu⟩ := ih hnext hp'
    rw [List.length_append, List.length_singleton] at hu
    rw [List.append_assoc, List.singleton_append] at hviewu hpu
    refine ⟨u, ?_, hviewu, hpu⟩
    rw [List.length_cons, eachFrom, hread]
    simp only [ht, Option.bind_some, hu]

omit [DecidableEq κ] in
/-- A body that changes the slot of its own entry only, as `slot` says, is run for every entry
once and in order. The invariant tells the entries that are done from those still to come. -/
theorem each_rule {slot : κ × α → Option (κ × α)}
    {P : List (κ × α) → List (κ × α) → σ → Prop}
    (hbody : ∀ done e todo s, view s = done.map slot ++ some e :: ofEntries todo →
      P done (e :: todo) s → ∃ t, body e.1 e.2 s = some t ∧
        view t = done.map slot ++ slot e :: ofEntries todo ∧ P (done ++ [e]) todo t)
    {es : List (κ × α)} {s : σ} (hview : view s = ofEntries es) (hp : P [] es s) :
    ∃ t, each view body s = some t ∧ view t = es.map slot ∧ P es [] t := by
  have hstart : view s = [].map slot ++ ofEntries es := hview
  obtain ⟨t, ht, hviewt, hpt⟩ := eachFrom_rule hbody hstart hp
  refine ⟨t, ?_, hviewt, hpt⟩
  rw [each, hview, ofEntries, List.length_map]
  exact ht

omit [DecidableEq κ] in
/-- Slots that keep their keys hold no others. -/
theorem free_map {slot : κ × α → Option (κ × α)} (hslot : ∀ e f, slot e = some f → f.1 = e.1)
    {k : κ} {es : List (κ × α)} (h : k ∉ Entries.keys es) : Free k (es.map slot) := by
  intro hk
  obtain ⟨f, hf, rfl⟩ := List.mem_map.mp hk
  obtain ⟨e, he, hef⟩ := List.mem_map.mp (List.reduceOption_mem_iff.mp hf)
  exact h (List.mem_map.mpr ⟨e, he, (hslot e f hef).symm⟩)

end HashEach
