import LolStreams.Ruby

/-! Nested parameters: a field name `a[b][c]` puts its value under `c` in the hash under `b`
in the hash under `a`. Names with an empty pair of brackets, which ask for an array, are left
out. -/
namespace NestedParams

open Ruby

def isBracket (c : Char) : Bool := c = '[' ∨ c = ']'

/-- The maximal runs without brackets. -/
def runs (cs : List Char) : List String :=
  ((cs.splitOnP isBracket).filter fun k => !k.isEmpty).map String.ofList

/-- The keys in a field name. -/
def fieldPath (name : String) : List String := runs name.toList

/-- Put a value under a path of keys. Hashes on the way are created where there is nothing. -/
def assignPath (v : Obj) : List String → Hash → Except Exn Hash
  | [], es => .ok es
  | [k], es => .ok (Entries.set k v es)
  | k :: ks, es =>
    match es.lookup k with
    | some (.hash fs) => (assignPath v ks fs).map fun fs => Entries.set k (.hash fs) es
    | none => (assignPath v ks []).map fun fs => Entries.set k (.hash fs) es
    | some .nil => (assignPath v ks []).map fun fs => Entries.set k (.hash fs) es
    | some _ => .error .typeError

def assignPaths : List (List String × Obj) → Hash → Except Exn Hash
  | [], es => .ok es
  | (path, v) :: rest, es =>
    match assignPath v path es with
    | .ok es => assignPaths rest es
    | .error e => .error e

/-- The fields in the order in which they were submitted. -/
def parseNested (fields : List (String × String)) : Except Exn Hash :=
  assignPaths (fields.map fun f => (fieldPath f.1, .str f.2)) []

/-! ### Field names -/

def bracketed (ks : List String) : List Char := ks.flatMap fun k => '[' :: k.toList ++ [']']

/-- `k[k₁][k₂]…` -/
def fieldName (k : String) (ks : List String) : String := String.ofList (k.toList ++ bracketed ks)

/-- A key that can be read back. -/
def IsKey (k : String) : Prop := k ≠ "" ∧ ∀ c ∈ k.toList, isBracket c = false

instance : DecidablePred IsKey := fun k =>
  inferInstanceAs (Decidable (k ≠ "" ∧ ∀ c ∈ k.toList, isBracket c = false))

theorem runs_plain {cs : List Char} (hc : ∀ c ∈ cs, isBracket c = false) :
    runs cs = if cs = [] then [] else [String.ofList cs] := by
  rw [runs, List.splitOnP_eq_singleton hc]
  by_cases h : cs = [] <;> simp [h]

theorem runs_append_cons {cs : List Char} (hc : ∀ c ∈ cs, isBracket c = false) {b : Char}
    (hb : isBracket b = true) (rest : List Char) :
    runs (cs ++ b :: rest) = if cs = [] then runs rest else String.ofList cs :: runs rest := by
  rw [runs, List.splitOnP_append_cons_of_forall_mem hc b hb]
  by_cases h : cs = [] <;> simp [h, runs]

theorem runs_bracketed {ks : List String} (hk : ∀ k ∈ ks, IsKey k) {cs : List Char}
    (hc : ∀ c ∈ cs, isBracket c = false) :
    runs (cs ++ bracketed ks) = if cs = [] then ks else String.ofList cs :: ks := by
  induction ks generalizing cs with
  | nil => simpa [bracketed] using runs_plain hc
  | cons k ks ih =>
    obtain ⟨hne, hkc⟩ := hk k List.mem_cons_self
    have htail : bracketed (k :: ks) = '[' :: (k.toList ++ ']' :: bracketed ks) := by
      simp [bracketed]
    have hkl : k.toList ≠ [] := by simpa using hne
    have hi := @ih (fun j hj => hk j (List.mem_cons_of_mem _ hj)) [] (by simp)
    rw [List.nil_append, if_pos rfl] at hi
    rw [htail, runs_append_cons hc rfl, runs_append_cons hkc rfl, if_neg hkl, hi,
      String.ofList_toList]

theorem fieldPath_fieldName {k : String} {ks : List String} (hk : IsKey k)
    (hks : ∀ j ∈ ks, IsKey j) : fieldPath (fieldName k ks) = k :: ks := by
  have hl : k.toList ≠ [] := by simpa using hk.1
  rw [fieldPath, fieldName, String.toList_ofList, runs_bracketed hks hk.2, if_neg hl,
    String.ofList_toList]

/-! ### Assigning below a key -/

/-- Prefix the paths with a key. -/
def under (k : String) (fields : List (List String × Obj)) : List (List String × Obj) :=
  fields.map fun f => (k :: f.1, f.2)

theorem assignPath_under {v : Obj} {path : List String} (hp : path ≠ []) (k : String)
    (es : Hash) : assignPath v (k :: path) es =
      match es.lookup k with
      | some (.hash fs) => (assignPath v path fs).map fun fs => Entries.set k (.hash fs) es
      | none => (assignPath v path []).map fun fs => Entries.set k (.hash fs) es
      | some .nil => (assignPath v path []).map fun fs => Entries.set k (.hash fs) es
      | some _ => .error .typeError := by
  cases path with
  | nil => exact absurd rfl hp
  | cons j path => rfl

theorem path_ne_nil_of_under {k : String} {fields : List (List String × Obj)} :
    ∀ f ∈ under k fields, f.1 ≠ [] := by
  intro f hf
  obtain ⟨g, _, rfl⟩ := List.mem_map.mp hf
  simp

theorem set_set (k : String) (v w : Obj) (es : Hash) :
    Entries.set k w (Entries.set k v es) = Entries.set k w es := by
  induction es with
  | nil => simp [Entries.set]
  | cons e es ih =>
    by_cases he : e.1 = k
    · simp [Entries.set, he]
    · simp [Entries.set, he, ih]

/-- Assignments below a key that holds a hash are made in that hash. -/
theorem assignPaths_under {fields : List (List String × Obj)} (hf : ∀ f ∈ fields, f.1 ≠ [])
    (k : String) {gs es : Hash} (hk : es.lookup k = some (.hash gs)) :
    assignPaths (under k fields) es =
      (assignPaths fields gs).map fun gs =>
        if fields = [] then es else Entries.set k (.hash gs) es := by
  induction fields generalizing gs es with
  | nil => rfl
  | cons f fields ih =>
    have hcons : under k (f :: fields) = (k :: f.1, f.2) :: under k fields := rfl
    rw [hcons, assignPaths, assignPath_under (hf f List.mem_cons_self), hk, assignPaths]
    simp only
    cases ha : assignPath f.2 f.1 gs with
    | error e => rfl
    | ok hs =>
      simp only [Except.map, List.cons_ne_nil, if_false]
      have hset : (Entries.set k (.hash hs) es).lookup k = some (.hash hs) := by
        rw [Entries.lookup_set, if_pos rfl]
      have htail : ∀ g ∈ fields, g.1 ≠ [] := fun g hg => hf g (List.mem_cons_of_mem _ hg)
      rw [ih htail hset]
      cases hs' : assignPaths fields hs with
      | error e => rfl
      | ok is =>
        simp only [Except.map]
        split_ifs with hnil
        · subst hnil
          cases hs'
          rfl
        · rw [set_set]

/-- Assignments below a new key make a new hash. -/
theorem assignPaths_new {fields : List (List String × Obj)} (hne : fields ≠ [])
    (hf : ∀ f ∈ fields, f.1 ≠ []) {k : String} {es gs : Hash} (hk : k ∉ Entries.keys es)
    (hg : assignPaths fields [] = .ok gs) :
    assignPaths (under k fields) es = .ok (es ++ [(k, .hash gs)]) := by
  cases fields with
  | nil => exact absurd rfl hne
  | cons f fields =>
    have hcons : under k (f :: fields) = (k :: f.1, f.2) :: under k fields := rfl
    rw [assignPaths] at hg
    have htail : ∀ g ∈ fields, g.1 ≠ [] := fun g hg => hf g (List.mem_cons_of_mem _ hg)
    rw [hcons, assignPaths, assignPath_under (hf f List.mem_cons_self),
      Entries.lookup_eq_none.mpr hk]
    simp only
    cases ha : assignPath f.2 f.1 [] with
    | error e => simp [ha] at hg
    | ok hs =>
      simp only [ha] at hg
      have hset : Entries.set k (.hash hs) es = es ++ [(k, .hash hs)] := Entries.set_of_not_mem hk
      have hlookup : (es ++ [(k, Obj.hash hs)]).lookup k = some (.hash hs) :=
        Entries.lookup_append_cons hk
      simp only [Except.map, hset]
      rw [assignPaths_under htail k hlookup, hg]
      by_cases hnil : fields = []
      · subst hnil
        cases hg
        rfl
      · simp only [Except.map, if_neg hnil, Entries.set_append_cons hk]

theorem assignPaths_append (xs ys : List (List String × Obj)) (es : Hash) :
    assignPaths (xs ++ ys) es = (assignPaths xs es).bind (assignPaths ys) := by
  induction xs generalizing es with
  | nil => rfl
  | cons x xs ih =>
    rw [List.cons_append, assignPaths, assignPaths]
    cases assignPath x.2 x.1 es with
    | error e => rfl
    | ok fs => exact ih fs

def flat (es : Hash) : List (List String × Obj) := es.map fun e => ([e.1], e.2)

theorem path_ne_nil_of_flat {es : Hash} : ∀ f ∈ flat es, f.1 ≠ [] := by
  intro f hf
  obtain ⟨e, _, rfl⟩ := List.mem_map.mp hf
  simp

theorem assignPaths_flat (new es : Hash) (hn : (Entries.keys es ++ Entries.keys new).Nodup) :
    assignPaths (flat new) es = .ok (es ++ new) := by
  induction new generalizing es with
  | nil => simp [flat, assignPaths]
  | cons e new ih =>
    rw [Entries.keys_cons, List.nodup_append, List.nodup_cons] at hn
    obtain ⟨hes, ⟨hnot, hnew⟩, hdisj⟩ := hn
    have hk : e.1 ∉ Entries.keys es := fun h => hdisj _ h _ (by simp) rfl
    have hset : Entries.set e.1 e.2 es = es ++ [e] := Entries.set_of_not_mem hk
    have hnodup : (Entries.keys (es ++ [e]) ++ Entries.keys new).Nodup := by
      rw [Entries.keys_append, List.append_assoc, List.nodup_append]
      exact ⟨hes, List.nodup_cons.mpr ⟨hnot, hnew⟩, hdisj⟩
    have hi := ih (es ++ [e]) hnodup
    have hcons : flat (e :: new) = ([e.1], e.2) :: flat new := rfl
    rw [hcons, assignPaths, assignPath, hset]
    simpa using hi

/-- A group of fields for each key. -/
def grouped (groups : List (String × Hash)) : List (List String × Obj) :=
  groups.flatMap fun g => under g.1 (flat g.2)

theorem path_ne_nil_of_grouped {groups : List (String × Hash)} :
    ∀ f ∈ grouped groups, f.1 ≠ [] := by
  intro f hf
  obtain ⟨g, _, hg⟩ := List.mem_flatMap.mp hf
  exact path_ne_nil_of_under f hg

theorem assignPaths_grouped (groups : List (String × Hash)) (es : Hash)
    (hn : (Entries.keys es ++ Entries.keys groups).Nodup)
    (hg : ∀ g ∈ groups, g.2 ≠ [] ∧ (Entries.keys g.2).Nodup) :
    assignPaths (grouped groups) es = .ok (es ++ Entries.mapVal .hash groups) := by
  induction groups generalizing es with
  | nil => simp [grouped, assignPaths, Entries.mapVal]
  | cons g groups ih =>
    rw [Entries.keys_cons, List.nodup_append, List.nodup_cons] at hn
    obtain ⟨hes, ⟨hnot, hgroups⟩, hdisj⟩ := hn
    have hk : g.1 ∉ Entries.keys es := fun h => hdisj _ h _ (by simp) rfl
    obtain ⟨hne, hg₂⟩ := hg g List.mem_cons_self
    have hflat : assignPaths (flat g.2) [] = .ok g.2 := by
      simpa using assignPaths_flat g.2 [] (by simpa using hg₂)
    have hfields : flat g.2 ≠ [] := by simpa [flat] using hne
    have hnew := assignPaths_new hfields path_ne_nil_of_flat hk hflat
    have hnodup : (Entries.keys (es ++ [(g.1, Obj.hash g.2)]) ++ Entries.keys groups).Nodup := by
      rw [Entries.keys_append, List.append_assoc, List.nodup_append]
      exact ⟨hes, List.nodup_cons.mpr ⟨hnot, hgroups⟩, hdisj⟩
    have hi := ih _ hnodup fun h hm => hg h (List.mem_cons_of_mem _ hm)
    have hcons : grouped (g :: groups) = under g.1 (flat g.2) ++ grouped groups := rfl
    rw [hcons, assignPaths_append, hnew]
    simpa [Except.bind, Entries.mapVal] using hi

end NestedParams
