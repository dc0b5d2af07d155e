import LolStreams.EditHandler
import LolStreams.HashEach

/-! The clean-up loops as they run: over the hashes of the document, which the getter and the
variables of the loops both refer to, and which change under them. -/
namespace LolStreams

open Ruby HashEach

/-- The hash of the document, whose values refer to the hashes of the accounts, and what the
loops have visited so far. -/
structure Heap where
  regions : Slots String ℕ
  accounts : ℕ → Slots String String
  seenRegions : List String
  seenNames : List (String × String × String)

namespace Heap

def write (h : Heap) (ref : ℕ) (names : Slots String String) : Heap :=
  { h with accounts := Function.update h.accounts ref names }

/-- The body of the inner loop, which gets at the names through the getter and the region. -/
def visitName (region account name : String) (h : Heap) : Option Heap :=
  let h := { h with seenNames := h.seenNames ++ [(region, account, name)] }
  (lookup region h.regions).bind fun ref =>
    if name = "" then some (h.write ref (delete account (h.accounts ref)))
    else
      (HashEach.assign account (downcase (deleteSpaces name)) (h.accounts ref)).map (h.write ref)

/-- The body of the outer loop, which runs over and then tests the loop variable. -/
def visitRegion (region : String) (names : ℕ) (h : Heap) : Option Heap :=
  let h := { h with seenRegions := h.seenRegions ++ [region] }
  (each (fun h => h.accounts names) (visitName region) h).map fun h =>
    if entries (h.accounts names) = [] then { h with regions := delete region h.regions } else h

def cleanInPlace (h : Heap) : Option Heap := each regions visitRegion h

/-- The value of the field. -/
def read (h : Heap) : Hash :=
  (entries h.regions).map fun e => (e.1, .hash (Entries.mapVal .str (entries (h.accounts e.2))))

end Heap

/-- The regions with references to their names. -/
def Names.refs (m : Names) : List (String × ℕ) := m.entries.zipIdx.map fun e => (e.1.1, e.2)

def Names.deref (m : Names) (ref : ℕ) : List (String × String) :=
  match m.entries[ref]? with
  | none => []
  | some e => e.2.entries

/-- The document as it was assigned, before the loops. -/
def Names.load (m : Names) : Heap where
  regions := ofEntries m.refs
  accounts ref := ofEntries (m.deref ref)
  seenRegions := []
  seenNames := []

def Names.visits (m : Names) : List (String × String × String) :=
  m.entries.flatMap fun e => e.2.entries.map fun f => (e.1, f)

/-! ### The inner loop -/

def cleanedSlot (e : String × String) : Option (String × String) :=
  (cleanedName e.2).map fun name => (e.1, name)

theorem entries_cleanedSlot (es : List (String × String)) :
    entries (es.map cleanedSlot) = Entries.filterMapVal cleanedName es := by
  rw [entries, List.reduceOption, List.filterMap_map]
  rfl

theorem cleanedSlot_key (e f : String × String) (h : cleanedSlot e = some f) : f.1 = e.1 := by
  obtain ⟨name, _, rfl⟩ := Option.map_eq_some_iff.mp h
  rfl

/-- A key of a list with each key once is in neither of the parts around it. -/
theorem key_split {α : Type} {done todo : List (String × α)} {e : String × α}
    (hn : (Entries.keys (done ++ e :: todo)).Nodup) :
    e.1 ∉ Entries.keys done ∧ e.1 ∉ Entries.keys todo := by
  rw [Entries.keys_append, Entries.keys_cons, List.nodup_middle, List.nodup_cons,
    List.mem_append, not_or] at hn
  exact hn.1

namespace Heap

variable {h : Heap} {region : String} {ref : ℕ}

theorem visitName_slot (hr : lookup region h.regions = some ref) {s t : Slots String String}
    {e : String × String} (hv : h.accounts ref = s ++ some e :: t) (hs : Free e.1 s)
    (ht : Free e.1 t) :
    visitName region e.1 e.2 h =
      some { h.write ref (s ++ cleanedSlot e :: t) with
        seenNames := h.seenNames ++ [(region, e)] } := by
  rcases e with ⟨account, name⟩
  simp only [visitName, hr, Option.bind_some, hv]
  by_cases hname : name = ""
  · rw [if_pos hname, delete_slot hs ht]
    simp [cleanedSlot, cleanedName, hname, write]
  · rw [if_neg hname, assign_slot hs ht]
    simp [cleanedSlot, cleanedName, hname, write]

/-- The heap while the loop over the names of a region is under way. -/
def during (h : Heap) (region : String) (ref : ℕ) (done todo : List (String × String)) : Heap :=
  { h.write ref (done.map cleanedSlot ++ ofEntries todo) with
    seenNames := h.seenNames ++ done.map fun e => (region, e) }

theorem visitName_during (hr : lookup region h.regions = some ref)
    {done todo : List (String × String)} {e : String × String}
    (hn : (Entries.keys (done ++ e :: todo)).Nodup) :
    visitName region e.1 e.2 (h.during region ref done (e :: todo)) =
      some (h.during region ref (done ++ [e]) todo) := by
  obtain ⟨hdone, htodo⟩ := key_split hn
  have hfree : Free e.1 (ofEntries todo) := by
    rwa [Free, entries_ofEntries]
  have hr' : lookup region (h.during region ref done (e :: todo)).regions = some ref := hr
  have hv : (h.during region ref done (e :: todo)).accounts ref =
      done.map cleanedSlot ++ some e :: ofEntries todo :=
    Function.update_self ..
  rw [visitName_slot hr' hv (free_map cleanedSlot_key hdone) hfree]
  simp [during, write]

theorem each_visitName (hr : lookup region h.regions = some ref) {es : List (String × String)}
    (hv : h.accounts ref = ofEntries es) (hn : (Entries.keys es).Nodup) :
    each (fun h : Heap => h.accounts ref) (visitName region) h =
      some (h.during region ref es []) := by
  have hstart : h = h.during region ref [] es := by
    simp [during, write, ← hv]
  have hbody : ∀ done e todo (s : Heap),
      s.accounts ref = done.map cleanedSlot ++ some e :: ofEntries todo →
      es = done ++ e :: todo ∧ s = h.during region ref done (e :: todo) →
      ∃ t, visitName region e.1 e.2 s = some t ∧
        t.accounts ref = done.map cleanedSlot ++ cleanedSlot e :: ofEntries todo ∧
        es = done ++ [e] ++ todo ∧ t = h.during region ref (done ++ [e]) todo := by
    rintro done e todo s _ ⟨hes, rfl⟩
    refine ⟨_, visitName_during hr (hes ▸ hn), ?_, ?_, rfl⟩
    · simp [during, write]
    · simpa using hes
  obtain ⟨t, ht, _, _, rfl⟩ :=
    each_rule (P := fun done todo s => es = done ++ todo ∧ s = h.during region ref done todo)
      hbody hv ⟨rfl, hstart⟩
  exact ht

/-! ### The outer loop -/

/-- A region stays unless all its names are empty. -/
def keptSlot (content : ℕ → List (String × String)) (e : String × ℕ) : Option (String × ℕ) :=
  if Entries.filterMapVal cleanedName (content e.2) = [] then none else some e

theorem keptSlot_key {content : ℕ → List (String × String)} (e f : String × ℕ)
    (h : keptSlot content e = some f) : f.1 = e.1 := by
  obtain ⟨_, hf⟩ := Option.ite_none_left_eq_some.mp h
  rw [Option.some.inj hf]

/-- The loop over the regions is done with some of them and has yet to come to the others. -/
structure Between (content : ℕ → List (String × String)) (done todo : List (String × ℕ))
    (h : Heap) : Prop where
  keys : (Entries.keys (done ++ todo)).Nodup
  refs : ((done ++ todo).map Prod.snd).Nodup
  names : ∀ e ∈ done ++ todo, (Entries.keys (content e.2)).Nodup
  cleaned : ∀ e ∈ done, h.accounts e.2 = (content e.2).map cleanedSlot
  untouched : ∀ e ∈ todo, h.accounts e.2 = ofEntries (content e.2)
  seenRegions : h.seenRegions = Entries.keys done
  seenNames : h.seenNames = done.flatMap fun e => (content e.2).map fun f => (e.1, f)

theorem visitRegion_slot {h : Heap} {content : ℕ → List (String × String)}
    {e : String × ℕ} {s t : Slots String ℕ} (hv : h.regions = s ++ some e :: t)
    (hs : Free e.1 s) (ht : Free e.1 t) (hc : h.accounts e.2 = ofEntries (content e.2))
    (hn : (Entries.keys (content e.2)).Nodup) :
    visitRegion e.1 e.2 h =
      some ⟨s ++ keptSlot content e :: t,
        Function.update h.accounts e.2 ((content e.2).map cleanedSlot),
        h.seenRegions ++ [e.1],
        h.seenNames ++ (content e.2).map fun f => (e.1, f)⟩ := by
  rcases e with ⟨region, ref⟩
  let h' : Heap := { h with seenRegions := h.seenRegions ++ [region] }
  have hr : lookup region h'.regions = some ref := by
    rw [show h'.regions = h.regions from rfl, hv]
    exact lookup_slot hs
  have heach := each_visitName hr (show h'.accounts ref = ofEntries (content ref) from hc) hn
  simp only [visitRegion]
  rw [heach]
  by_cases hempty : Entries.filterMapVal cleanedName (content ref) = []
  · simp [during, write, ofEntries, entries_cleanedSlot, hempty, keptSlot, h', hv,
      delete_slot hs ht]
  · simp [during, write, ofEntries, entries_cleanedSlot, hempty, keptSlot, h', hv]

theorem visitRegion_between {h : Heap} {content : ℕ → List (String × String)}
    {done todo : List (String × ℕ)} {e : String × ℕ}
    (hv : h.regions = done.map (keptSlot content) ++ some e :: ofEntries todo)
    (hb : Between content done (e :: todo) h) :
    ∃ t, visitRegion e.1 e.2 h = some t ∧
      t.regions = done.map (keptSlot content) ++ keptSlot content e :: ofEntries todo ∧
      Between content (done ++ [e]) todo t := by
  obtain ⟨hdone, htodo⟩ := key_split hb.keys
  have hfree : Free e.1 (ofEntries todo) := by
    rwa [Free, entries_ofEntries]
  have hslot := visitRegion_slot hv (free_map keptSlot_key hdone) hfree
    (hb.untouched e List.mem_cons_self) (hb.names e (by simp))
  refine ⟨_, hslot, rfl, ?_⟩
  have hrefs := hb.refs
  rw [List.map_append, List.map_cons, List.nodup_middle, List.nodup_cons, List.mem_append,
    not_or] at hrefs
  obtain ⟨⟨hearlier, hlater⟩, _⟩ := hrefs
  constructor
  · simpa using hb.keys
  · simpa using hb.refs
  · simpa using hb.names
  · intro f hf
    rcases List.mem_append.mp hf with hf | hf
    · have hne : f.2 ≠ e.2 := by
        intro he
        exact hearlier (he ▸ List.mem_map_of_mem hf)
      exact (Function.update_of_ne hne ..).trans (hb.cleaned f hf)
    · rw [List.mem_singleton.mp hf]
      exact Function.update_self ..
  · intro f hf
    have hne : f.2 ≠ e.2 := by
      intro he
      exact hlater (he ▸ List.mem_map_of_mem hf)
    exact (Function.update_of_ne hne ..).trans (hb.untouched f (List.mem_cons_of_mem _ hf))
  · simp [hb.seenRegions]
  · simp [hb.seenNames]

end Heap

/-! ### The whole document -/

variable (m : Names)

theorem keys_refs : Entries.keys m.refs = m.keys := by
  rw [Entries.keys, Names.refs, List.map_map, OrderedMap.keys, Entries.keys,
    ← List.zipIdx_map_fst 0 m.entries, List.map_map]
  simp [Function.comp_def]

theorem nodup_refs : (m.refs.map Prod.snd).Nodup := by
  have h : m.refs.map Prod.snd = m.entries.zipIdx.map Prod.snd := by
    simp [Names.refs, Function.comp_def]
  rw [h, List.zipIdx_map_snd]
  exact List.nodup_range'

/-- Following the references gives back the entries. -/
theorem map_refs {β : Type} (f : String → List (String × String) → β) :
    (m.refs.map fun e => f e.1 (m.deref e.2)) = m.entries.map fun e => f e.1 e.2.entries := by
  refine List.ext_getElem (by simp [Names.refs]) ?_
  intro i h₁ h₂
  have hi : i < m.entries.length := by simpa using h₂
  simp [Names.refs, Names.deref, List.getElem?_eq_getElem hi]

theorem flatMap_refs {β : Type} (f : String → List (String × String) → List β) :
    (m.refs.flatMap fun e => f e.1 (m.deref e.2)) =
      m.entries.flatMap fun e => f e.1 e.2.entries := by
  rw [List.flatMap_def, List.flatMap_def, map_refs]

theorem filterMap_refs {β : Type} (f : String → List (String × String) → Option β) :
    (m.refs.filterMap fun e => f e.1 (m.deref e.2)) =
      m.entries.filterMap fun e => f e.1 e.2.entries := by
  have h : ∀ {γ : Type} (g : γ → Option β) (l : List γ), l.filterMap g = (l.map g).filterMap id := by
    intro γ g l
    rw [List.filterMap_map]
    rfl
  rw [h, map_refs, ← h]

theorem nodup_deref (e : String × ℕ) : (Entries.keys (m.deref e.2)).Nodup := by
  unfold Names.deref
  cases m.entries[e.2]? with
  | none => exact List.nodup_nil
  | some f => exact f.2.nodup

/-- A region as it is stored afterwards, if it is. -/
def storedRegion (region : String) (names : List (String × String)) : Option (String × Obj) :=
  let cleaned := Entries.filterMapVal cleanedName names
  if cleaned = [] then none else some (region, .hash (Entries.mapVal .str cleaned))

theorem toHash_cleaned :
    m.cleaned.toHash = m.entries.filterMap fun e => storedRegion e.1 e.2.entries := by
  have hentries : m.cleaned.entries = m.entries.filterMap fun e =>
      (cleanedAccounts e.2).map fun names => (e.1, names) := rfl
  rw [Names.toHash, Entries.mapVal, hentries, List.map_filterMap]
  refine List.filterMap_congr ?_
  intro e _
  by_cases he : Entries.filterMapVal cleanedName e.2.entries = []
  · simp [cleanedAccounts, storedRegion, OrderedMap.filterMap, he]
  · simp [cleanedAccounts, storedRegion, OrderedMap.filterMap, he, accountsHash]

theorem between_load : Heap.Between m.deref [] m.refs m.load where
  keys := by
    rw [List.nil_append, keys_refs]
    exact m.nodup
  refs := nodup_refs m
  names e _ := nodup_deref m e
  cleaned e he := absurd he List.not_mem_nil
  untouched _ _ := rfl
  seenRegions := rfl
  seenNames := rfl

theorem read_load : m.load.read = m.toHash := by
  rw [Heap.read, Names.load, entries_ofEntries]
  simp only [entries_ofEntries]
  exact map_refs m fun region names => (region, Obj.hash (Entries.mapVal .str names))

theorem read_of_between {h : Heap} (hv : h.regions = m.refs.map (Heap.keptSlot m.deref))
    (hb : Heap.Between m.deref m.refs [] h) : h.read = m.cleaned.toHash := by
  have hentries : entries h.regions = m.refs.filterMap (Heap.keptSlot m.deref) := by
    rw [hv, entries, List.reduceOption, List.filterMap_map]
    rfl
  rw [Heap.read, hentries, List.map_filterMap, toHash_cleaned, ← filterMap_refs]
  refine List.filterMap_congr ?_
  intro e he
  by_cases hempty : Entries.filterMapVal cleanedName (m.deref e.2) = []
  · simp [Heap.keptSlot, storedRegion, hempty]
  · simp [Heap.keptSlot, storedRegion, hempty, hb.cleaned e he, entries_cleanedSlot]

theorem nodup_visits : m.visits.Nodup := by
  rw [Names.visits, List.nodup_flatMap]
  constructor
  · intro e _
    have hn : e.2.entries.Nodup := .of_map _ e.2.nodup
    exact hn.map fun f g h => (Prod.mk.inj h).2
  · have hp : m.entries.Pairwise fun e f => e.1 ≠ f.1 := List.pairwise_map.mp m.nodup
    refine hp.imp ?_
    intro e f hne
    simp only [Function.onFun, List.disjoint_left, List.mem_map]
    rintro _ ⟨x, _, rfl⟩ ⟨y, _, hy⟩
    exact hne (Prod.mk.inj hy).1.symm

/-- The loops in place leave the cleaned names. They visit every region and every name once and
in order, and remove a region if and only if all its names are empty. -/
theorem cleanInPlace_load :
    ∃ h, m.load.cleanInPlace = some h ∧ h.read = m.cleaned.toHash ∧
      cleanUp m.load.read = .ok h.read ∧
      h.seenRegions = m.keys ∧ h.seenNames = m.visits ∧ m.visits.Nodup ∧
      ∀ region names, m.lookup region = some names →
        (h.read.lookup region = none ↔
          ∀ account name, names.lookup account = some name → name = "") := by
  obtain ⟨h, hrun, hv, hb⟩ := each_rule (fun _ _ _ _ => Heap.visitRegion_between) rfl
    (between_load m)
  have hread : h.read = m.cleaned.toHash := read_of_between m hv hb
  refine ⟨h, hrun, hread, ?_, ?_, ?_, nodup_visits m, ?_⟩
  · rw [read_load, hread, cleanUp_names]
  · rw [hb.seenRegions, keys_refs]
  · rw [hb.seenNames, Names.visits]
    exact flatMap_refs m fun region names => names.map fun f => (region, f)
  · intro region names hr
    rw [hread, Names.lookup_toHash, Option.map_eq_none_iff, Names.cleaned,
      OrderedMap.lookup_filterMap, hr, Option.bind_some, cleanedAccounts_eq_none]
    refine forall_congr' fun account => ?_
    cases names.lookup account with
    | none => simp
    | some name => simp [cleanedName]

end LolStreams
