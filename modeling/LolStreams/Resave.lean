import LolStreams.EditHandler

/-! What the clean-up makes of names that it has already cleaned. -/
namespace LolStreams

open Ruby

/-- Stored names as they should be: each region with some name, each name with some character,
in lower case and without spaces. -/
structure Names.Canonical (m : Names) : Prop where
  regions : ∀ region names, m.lookup region = some names → names.entries ≠ []
  names : ∀ region names account name, m.lookup region = some names →
    names.lookup account = some name →
      name ≠ "" ∧ ' ' ∉ name.toList ∧ downcase name = name

/-- The clean-up leaves canonical names, and cleaning them up once more changes nothing. -/
def Settles (m : Names) : Prop :=
  ∃ n : Names, cleanUp m.toHash = .ok n.toHash ∧ cleanUp n.toHash = .ok n.toHash ∧ n.Canonical

/-- The test for the empty name comes before the spaces are deleted. -/
def Names.NoBlank (m : Names) : Prop :=
  ∀ region names account name, m.lookup region = some names →
    names.lookup account = some name → name ≠ "" → ∃ c ∈ name.toList, c ≠ ' '

theorem cleanedName_eq_some {name stored : String} :
    cleanedName name = some stored ↔ name ≠ "" ∧ downcase (deleteSpaces name) = stored := by
  rw [cleanedName, Option.ite_none_left_eq_some, Option.some.injEq]

theorem cleanedName_of_canonical {name : String} (hne : name ≠ "") (hspace : ' ' ∉ name.toList)
    (hlower : downcase name = name) : cleanedName name = some name := by
  rw [cleanedName_eq_some, deleteSpaces_of_not_mem hspace]
  exact ⟨hne, hlower⟩

variable {m : Names}

theorem Names.Canonical.cleaned_eq (h : m.Canonical) : m.cleaned = m := by
  refine OrderedMap.filterMap_eq_self ?_
  intro region names hr
  have hnames : names.filterMap cleanedName = names := by
    refine OrderedMap.filterMap_eq_self ?_
    intro account name ha
    obtain ⟨hne, hspace, hlower⟩ := h.names region names account name hr ha
    exact cleanedName_of_canonical hne hspace hlower
  rw [cleanedAccounts, hnames, if_neg (h.regions region names hr)]

/-- Where a cleaned name comes from. -/
theorem lookup_cleaned {region : String} {names : OrderedMap String String}
    (hr : m.cleaned.lookup region = some names) :
    names.entries ≠ [] ∧ ∃ submitted, m.lookup region = some submitted ∧
      ∀ account, names.lookup account = (submitted.lookup account).bind cleanedName := by
  rw [Names.cleaned, OrderedMap.lookup_filterMap] at hr
  obtain ⟨submitted, hs, hc⟩ := Option.bind_eq_some_iff.mp hr
  refine ⟨?_, submitted, hs, lookup_of_cleanedAccounts hc⟩
  obtain ⟨hempty, hnames⟩ := Option.ite_none_left_eq_some.mp hc
  rwa [← Option.some.inj hnames]

theorem canonical_cleaned (h : m.NoBlank) : m.cleaned.Canonical := by
  constructor
  · intro region names hr
    exact (lookup_cleaned hr).1
  · intro region names account name hr ha
    obtain ⟨_, submitted, hs, hlookup⟩ := lookup_cleaned hr
    rw [hlookup account] at ha
    obtain ⟨given, hg, hc⟩ := Option.bind_eq_some_iff.mp ha
    obtain ⟨hne, rfl⟩ := cleanedName_eq_some.mp hc
    obtain ⟨c, hm, hspace⟩ := h region submitted account given hs hg hne
    refine ⟨?_, space_not_mem_downcase (space_not_mem_deleteSpaces given), downcase_downcase _⟩
    intro hempty
    exact hspace (downcase_deleteSpaces_eq_empty.mp hempty c hm)

/-- A name that is not empty is stored, whatever is left of it. -/
theorem stored_of_cleanUp {n : Names} (h : cleanUp m.toHash = .ok n.toHash)
    {region account name : String} {names : OrderedMap String String}
    (hr : m.lookup region = some names) (ha : names.lookup account = some name)
    (hne : name ≠ "") :
    ∃ stored, n.lookup region = some stored ∧
      stored.lookup account = some (downcase (deleteSpaces name)) := by
  rw [cleanUp_names, Except.ok.injEq] at h
  have hname : cleanedName name = some (downcase (deleteSpaces name)) :=
    cleanedName_eq_some.mpr ⟨hne, rfl⟩
  cases hc : cleanedAccounts names with
  | none =>
    have hnone := cleanedAccounts_eq_none.mp hc account
    simp [ha, hname] at hnone
  | some cleaned =>
    have hregion : m.cleaned.lookup region = some cleaned := by
      rw [Names.cleaned, OrderedMap.lookup_filterMap, hr, Option.bind_some, hc]
    have hhash := congrArg (List.lookup region) h
    rw [Names.lookup_toHash, Names.lookup_toHash, hregion] at hhash
    obtain ⟨stored, hs, heq⟩ := Option.map_eq_some_iff.mp hhash.symm
    refine ⟨stored, hs, ?_⟩
    have haccounts := congrArg (List.lookup account) (Obj.hash.inj heq)
    rw [lookup_accountsHash, lookup_accountsHash, lookup_of_cleanedAccounts hc, ha,
      Option.bind_some, hname] at haccounts
    obtain ⟨value, hv, hstr⟩ := Option.map_eq_some_iff.mp haccounts
    rw [hv, Obj.str.inj hstr]

/-- Saving again is a no-op exactly when no name consists of spaces only. -/
theorem settles_iff (m : Names) : Settles m ↔ m.NoBlank := by
  constructor
  · rintro ⟨n, hclean, _, hcanonical⟩ region names account name hr ha hne
    obtain ⟨stored, hs, hlookup⟩ := stored_of_cleanUp hclean hr ha hne
    have hstored := (hcanonical.names region stored account _ hs hlookup).1
    rw [ne_eq, downcase_deleteSpaces_eq_empty] at hstored
    push Not at hstored
    exact hstored
  · intro h
    have hcanonical := canonical_cleaned h
    refine ⟨m.cleaned, cleanUp_names m, ?_, hcanonical⟩
    rw [cleanUp_names, hcanonical.cleaned_eq]

/-! ### A name of one space -/

def spaceAccount : OrderedMap String String := ⟨[("Main", " ")], List.nodup_singleton _⟩

def spaceName : Names := ⟨[("NA", spaceAccount)], List.nodup_singleton _⟩

/-- It is stored as the empty name. -/
theorem space_name_stored_empty : ¬ ∀ m : Names, Settles m := by
  intro h
  obtain ⟨n, hclean, _, hcanonical⟩ := h spaceName
  have hr : spaceName.lookup "NA" = some spaceAccount := rfl
  have ha : spaceAccount.lookup "Main" = some " " := rfl
  obtain ⟨stored, hs, hlookup⟩ := stored_of_cleanUp hclean hr ha (by decide)
  exact (hcanonical.names "NA" stored "Main" _ hs hlookup).1 (by decide)

end LolStreams
