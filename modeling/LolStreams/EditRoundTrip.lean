import LolStreams.AttributeValue
import LolStreams.EditHandler
import LolStreams.NestedParams

/-! Opening the edit page of a streamer and submitting it with nothing filled in but the
password: what the template writes, what the browser makes of it, and what the handler then
stores. -/
namespace LolStreams

open Ruby AttributeValue NestedParams

/-! ### The template and the browser -/

def formRegions : List String := ["NA", "EUW", "EUNE", "TR", "RU", "OCE", "LAS", "LAN", "BR"]

def formAccounts : List String :=
  ["Main", "Smurf", "Smurf2", "Smurf3", "Smurf4", "Smurf5", "Smurf6"]

/-- `streamer[summoner_names][region][account]` -/
def inputName (region account : String) : String :=
  fieldName "streamer" ["summoner_names", region, account]

variable (conv : Conversions) (refs : References)

/-- `<%= @streamer.summoner_names[region][account] %>`, which for a string under the region
asks whether it contains the account. -/
def shownName (names : Hash) (region account : String) : Except Exn String :=
  match names.lookup region with
  | some (.hash accounts) =>
    match accounts.lookup account with
    | none => .ok ""
    | some .nil => .ok ""
    | some (.str name) => .ok name
    | some o => .ok (conv.inspect o)
  | some (.str s) => .ok (if account.toList <:+: s.toList then account else "")
  | some (.arr _) => .error .typeError
  | _ => .error .noMethodError

def nameInput (names : Hash) (region account : String) : Except Exn (String × String) :=
  (shownName conv names region account).map fun shown =>
    (inputName region account, inputValue refs shown)

def nameInputs (names : Hash) : Except Exn (List (String × String)) :=
  (formRegions.mapM fun region => formAccounts.mapM fun account =>
    nameInput conv refs names region account).map List.flatten

/-- The fields of the submitted form. Of the options for the gender the browser selects the
first, which holds the gender as it is. -/
def submittedFields (doc : Streamer) (password : String) : Except Exn (List (String × String)) :=
  (nameInputs conv refs (doc.summonerNames.getD [])).map fun names =>
    [("_method", "put"), ("streamer[team]", inputValue refs (doc.team.getD "")),
      ("streamer[gender]", String.ofList
        (attributeValue refs ((genderText doc.gender).toList ++ ['"', '>'])))] ++
      names ++ [("password", password)]

/-- The stored document after `GET` and `PUT /:name/bleh` with the right password. -/
def resubmit (password : String) (stored : Streamer) : Except Exn Streamer :=
  match submittedFields conv refs (prepare stored) password with
  | .error e => .error e
  | .ok fields =>
    match parseNested fields with
    | .error e => .error e
    | .ok params => .ok (edit conv (some password) (editRequest params) stored).1

/-- The names and the gender come back as they were. -/
def LosesNothing (password : String) (stored : Streamer) : Prop :=
  ∃ doc, resubmit conv refs password stored = .ok doc ∧ doc.gender = stored.gender ∧
    sameNames stored.summonerNames doc.summonerNames = true

/-- The name and the team do not end the attributes that they are put into. A quote in them
could begin inputs of its own. -/
def Streamer.Unquoted (doc : Streamer) : Prop :=
  '"' ∉ (doc.name.getD "").toList ∧ '"' ∉ (doc.team.getD "").toList

/-- Names that the form is meant for: in the regions and under the accounts that it knows,
none of them empty, in lower case and without spaces. -/
structure Names.Editable (m : Names) : Prop where
  regions : ∀ region ∈ m.keys, region ∈ preparedRegions
  accounts : ∀ region names, m.lookup region = some names →
    names.entries ≠ [] ∧ ∀ account ∈ names.keys, account ∈ formAccounts
  names : ∀ region names account name, m.lookup region = some names →
    names.lookup account = some name → name ≠ "" ∧ downcase name = name ∧ ' ' ∉ name.toList

/-! ### Names of fields -/

theorem isKey_formRegions : ∀ region ∈ formRegions, IsKey region := by
  simp [formRegions, IsKey, isBracket]

theorem isKey_formAccounts : ∀ account ∈ formAccounts, IsKey account := by
  simp [formAccounts, IsKey, isBracket]

theorem fieldPath_inputName {region account : String} (hr : region ∈ formRegions)
    (ha : account ∈ formAccounts) :
    fieldPath (inputName region account) = ["streamer", "summoner_names", region, account] := by
  refine fieldPath_fieldName (by simp [IsKey, isBracket]) ?_
  intro k hk
  simp only [List.mem_cons, List.not_mem_nil, or_false] at hk
  rcases hk with rfl | rfl | rfl
  · simp [IsKey, isBracket]
  · exact isKey_formRegions k hr
  · exact isKey_formAccounts k ha

/-! ### What the page shows -/

/-- `region ||= ""` -/
def filled : Option Obj → Obj
  | none => .str ""
  | some .nil => .str ""
  | some o => o

theorem filled_some_filled (o : Option Obj) : filled (some (filled o)) = filled o := by
  cases o with
  | none => rfl
  | some o => cases o <;> rfl

theorem lookup_prepareRegion (names : Hash) (region r : String) :
    (prepareRegion names region).lookup r =
      if r = region then some (filled (names.lookup r)) else names.lookup r := by
  by_cases hr : r = region
  · subst hr
    rw [if_pos rfl, prepareRegion]
    cases h : names.lookup r with
    | none => simp [Entries.lookup_set, filled]
    | some o => cases o <;> simp [Entries.lookup_set, filled, h]
  · rw [if_neg hr, prepareRegion]
    split <;> simp [Entries.lookup_set, hr]

theorem lookup_prepareRegions (regions : List String) (names : Hash) (r : String) :
    (regions.foldl prepareRegion names).lookup r =
      if r ∈ regions then some (filled (names.lookup r)) else names.lookup r := by
  induction regions generalizing names with
  | nil => simp
  | cons region regions ih =>
    rw [List.foldl_cons, ih, lookup_prepareRegion]
    by_cases hr : r = region
    · simp [hr, filled_some_filled]
    · simp [hr]

/-- The name under a region and an account, empty where there is none. -/
def Names.shown (m : Names) (region account : String) : String :=
  ((m.lookup region).bind fun names => names.lookup account).getD ""

theorem formRegions_prepared : ∀ region ∈ formRegions, region ∈ preparedRegions := by
  simp [formRegions, preparedRegions]

theorem shownName_prepare {stored : Streamer} {m : Names}
    (hm : stored.summonerNames = some m.toHash) {region account : String}
    (hr : region ∈ formRegions) (ha : account ∈ formAccounts) :
    shownName conv ((prepare stored).summonerNames.getD []) region account =
      .ok (m.shown region account) := by
  have hlookup : ((prepare stored).summonerNames.getD []).lookup region =
      some (filled (m.toHash.lookup region)) := by
    simp only [prepare, hm, Option.getD_some, lookup_prepareRegions,
      if_pos (formRegions_prepared region hr)]
  rw [shownName, hlookup, Names.lookup_toHash, Names.shown]
  cases m.lookup region with
  | none =>
    have hne : account.toList ≠ [] := by simpa using (isKey_formAccounts account ha).1
    simp [filled, hne]
  | some names =>
    simp only [Option.map_some, filled, lookup_accountsHash, Option.bind_some]
    cases names.lookup account <;> rfl

/-! ### What is submitted -/

/-- The names in the form, empty ones included. -/
def formNames (text : String → String → String) : Names :=
  OrderedMap.tabulate formRegions (by decide) fun region =>
    OrderedMap.tabulate formAccounts (by decide) (text region)

theorem mapM_ok {α β ε : Type} {f : α → Except ε β} {g : α → β} {l : List α}
    (h : ∀ a ∈ l, f a = .ok (g a)) : l.mapM f = .ok (l.map g) := by
  induction l with
  | nil => rfl
  | cons a l ih =>
    have hl := ih fun b hb => h b (List.mem_cons_of_mem _ hb)
    rw [List.mapM_cons, h a List.mem_cons_self, hl]
    rfl

theorem nameInputs_prepare {stored : Streamer} {m : Names}
    (hm : stored.summonerNames = some m.toHash) :
    nameInputs conv refs ((prepare stored).summonerNames.getD []) =
      .ok (formRegions.flatMap fun region => formAccounts.map fun account =>
        (inputName region account, inputValue refs (m.shown region account))) := by
  have hinput : ∀ region ∈ formRegions, ∀ account ∈ formAccounts,
      nameInput conv refs ((prepare stored).summonerNames.getD []) region account =
        .ok (inputName region account, inputValue refs (m.shown region account)) := by
    intro region hr account ha
    rw [nameInput, shownName_prepare conv hm hr ha]
    rfl
  rw [nameInputs, mapM_ok fun region hr => mapM_ok (hinput region hr)]
  rfl

/-! ### What the server reads -/

theorem assignPaths_formNames (text : String → String → String) :
    assignPaths (grouped (formRegions.map fun region =>
      (region, formAccounts.map fun account => (account, .str (text region account))))) [] =
      .ok (formNames text).toHash := by
  rw [assignPaths_grouped]
  · simp [Entries.mapVal, Names.toHash, formNames, OrderedMap.tabulate, accountsHash]
  · simp [Entries.keys, formRegions]
  · simp [Entries.keys, formRegions, formAccounts]

/-- The fields below `streamer`. -/
def streamerFields (team gender : String) (text : String → String → String) :
    List (List String × Obj) :=
  flat [("team", .str team), ("gender", .str gender)] ++ under "summoner_names"
    (grouped (formRegions.map fun region =>
      (region, formAccounts.map fun account => (account, .str (text region account)))))

theorem assignPaths_streamerFields (team gender : String) (text : String → String → String) :
    assignPaths (streamerFields team gender text) [] =
      .ok [("team", .str team), ("gender", .str gender),
        ("summoner_names", .hash (formNames text).toHash)] := by
  have hflat : assignPaths (flat [("team", Obj.str team), ("gender", .str gender)]) [] =
      .ok [("team", .str team), ("gender", .str gender)] := assignPaths_flat _ _ (by simp)
  have hne : grouped (formRegions.map fun region =>
      (region, formAccounts.map fun account => (account, Obj.str (text region account)))) ≠ [] := by
    simp [grouped, formRegions, formAccounts, under, flat]
  rw [streamerFields, assignPaths_append, hflat, Except.bind,
    assignPaths_new hne path_ne_nil_of_grouped (by simp) (assignPaths_formNames text)]
  rfl

/-- The submitted fields are read as the names that the form shows. -/
theorem parseNested_fields (team gender password : String) (text : String → String → String) :
    parseNested ([("_method", "put"), ("streamer[team]", team), ("streamer[gender]", gender)] ++
        (formRegions.flatMap fun region => formAccounts.map fun account =>
          (inputName region account, text region account)) ++ [("password", password)]) =
      .ok [("_method", .str "put"),
        ("streamer", .hash [("team", .str team), ("gender", .str gender),
          ("summoner_names", .hash (formNames text).toHash)]),
        ("password", .str password)] := by
  have hnames : (formRegions.flatMap fun region => formAccounts.map fun account =>
        (inputName region account, text region account)).map
        (fun f => (fieldPath f.1, Obj.str f.2)) =
      under "streamer" (under "summoner_names" (grouped (formRegions.map fun region =>
        (region, formAccounts.map fun account => (account, .str (text region account)))))) := by
    simp only [List.map_flatMap, under, grouped, flat, List.flatMap_map, List.map_map]
    refine List.flatMap_congr fun region hr => List.map_congr_left fun account ha => ?_
    simp [fieldPath_inputName hr ha]
  have hmethod : fieldPath "_method" = ["_method"] := by decide +kernel
  have hteam : fieldPath "streamer[team]" = ["streamer", "team"] := by decide +kernel
  have hgender : fieldPath "streamer[gender]" = ["streamer", "gender"] := by decide +kernel
  have hpassword : fieldPath "password" = ["password"] := by decide +kernel
  have hfields : ([("_method", "put"), ("streamer[team]", team), ("streamer[gender]", gender)] ++
        (formRegions.flatMap fun region => formAccounts.map fun account =>
          (inputName region account, text region account)) ++ [("password", password)]).map
        (fun f => (fieldPath f.1, Obj.str f.2)) =
      flat [("_method", .str "put")] ++ under "streamer" (streamerFields team gender text) ++
        flat [("password", .str password)] := by
    rw [List.map_append, List.map_append, hnames]
    simp [hmethod, hteam, hgender, hpassword, flat, under, streamerFields]
  have hne : streamerFields team gender text ≠ [] := by simp [streamerFields, flat]
  have hpath : ∀ f ∈ streamerFields team gender text, f.1 ≠ [] := by
    intro f hf
    rcases List.mem_append.mp hf with hf | hf
    · exact path_ne_nil_of_flat f hf
    · exact path_ne_nil_of_under f hf
  have hflat : assignPaths (flat [("_method", Obj.str "put")]) [] =
      .ok [("_method", .str "put")] := assignPaths_flat _ _ (by simp)
  rw [parseNested, hfields, assignPaths_append, assignPaths_append, hflat, Except.bind,
    assignPaths_new hne hpath (by simp) (assignPaths_streamerFields team gender text),
    Except.bind, assignPaths_flat _ _ (by simp)]
  rfl

/-! ### The stored document afterwards -/

section
variable {stored : Streamer} {m : Names}

/-- The names that the form submits when nothing is changed. -/
def Names.submitted (m : Names) : Names :=
  formNames fun region account => inputValue refs (m.shown region account)

theorem plain_genderText (gender : Option ℤ) : Plain refs (genderText gender).toList := by
  refine plain_of_forall fun c hc => ?_
  rcases mem_genderText hc with hd | rfl
  · refine ⟨?_, ?_, ?_, ?_, ?_⟩ <;> rintro rfl <;> revert hd <;> decide
  · decide

theorem editRequest_form (team gender password : String) (names : Names) :
    editRequest [("_method", .str "put"),
      ("streamer", .hash [("team", .str team), ("gender", .str gender),
        ("summoner_names", .hash names.toHash)]),
      ("password", .str password)] =
      EditForm.request (some password) ⟨team, gender, names⟩ := by
  simp [editRequest, EditForm.request, envPassword, Entries.lookup_cons]

theorem resubmit_of_fields {password : String} {fields : List (String × String)} {params : Hash}
    (hfields : submittedFields conv refs (prepare stored) password = .ok fields)
    (hparams : parseNested fields = .ok params) :
    resubmit conv refs password stored =
      .ok (edit conv (some password) (editRequest params) stored).1 := by
  unfold resubmit
  rw [hfields]
  simp only
  rw [hparams]

/-- The request is the one of the form with the stored values in it. -/
theorem resubmit_eq (hm : stored.summonerNames = some m.toHash) (password : String) :
    resubmit conv refs password stored = .ok (edit conv (some password)
      (EditForm.request (some password) ⟨inputValue refs (stored.team.getD ""),
        genderText stored.gender, m.submitted refs⟩) stored).1 := by
  have hteam : (prepare stored).team = stored.team := rfl
  have hgender : (prepare stored).gender = stored.gender := rfl
  have hfields : submittedFields conv refs (prepare stored) password =
      .ok ([("_method", "put"), ("streamer[team]", inputValue refs (stored.team.getD "")),
          ("streamer[gender]", genderText stored.gender)] ++
        (formRegions.flatMap fun region => formAccounts.map fun account =>
          (inputName region account, inputValue refs (m.shown region account))) ++
        [("password", password)]) := by
    rw [submittedFields, nameInputs_prepare conv refs hm, hteam, hgender,
      attributeValue_of_plain (plain_genderText refs stored.gender), String.ofList_toList]
    rfl
  rw [resubmit_of_fields conv refs hfields (parseNested_fields _ _ _ fun region account =>
    inputValue refs (m.shown region account)), editRequest_form]
  rfl

theorem gender_edit (password team : String) (names : Names) (stored : Streamer) :
    (edit conv (some password) (EditForm.request (some password)
      ⟨team, genderText stored.gender, names⟩) stored).1.gender = stored.gender := by
  rw [edit_request]
  simp [save, EditForm.apply, mongoizeInteger_genderText]

/-- The gender always comes back, so it is the names that decide. -/
theorem losesNothing_iff_names (hm : stored.summonerNames = some m.toHash) (password : String) :
    LosesNothing conv refs password stored ↔
      sameNames (some m.toHash) (some (m.submitted refs).cleaned.toHash) = true := by
  have hedit := sameNames_edit conv (some password)
    ⟨inputValue refs (stored.team.getD ""), genderText stored.gender, m.submitted refs⟩ stored
  rw [LosesNothing, resubmit_eq conv refs hm, hm]
  constructor
  · rintro ⟨doc, hdoc, _, hsame⟩
    cases hdoc
    exact sameNames_trans hsame hedit
  · intro hsame
    exact ⟨_, rfl, gender_edit conv _ _ _ _, sameNames_trans hsame (sameNames_symm hedit)⟩

end

/-! ### Which names come back -/

section
variable {m : Names}

/-- The inputs for a region. -/
def Names.submittedAccounts (m : Names) (region : String) : OrderedMap String String :=
  OrderedMap.tabulate formAccounts (by decide) fun account => inputValue refs (m.shown region account)

theorem lookup_submitted_cleaned (region : String) :
    (m.submitted refs).cleaned.lookup region =
      if region ∈ formRegions then cleanedAccounts (m.submittedAccounts refs region) else none := by
  rw [Names.cleaned, OrderedMap.lookup_filterMap, Names.submitted, formNames,
    OrderedMap.lookup_tabulate]
  split_ifs
  · rw [Option.bind_some, Names.submittedAccounts]
  · rw [Option.bind_none]

theorem lookup_submittedAccounts_cleaned (region account : String) :
    ((m.submittedAccounts refs region).lookup account).bind cleanedName =
      if account ∈ formAccounts then cleanedName (inputValue refs (m.shown region account))
      else none := by
  rw [Names.submittedAccounts, OrderedMap.lookup_tabulate]
  split_ifs
  · rw [Option.bind_some]
  · rw [Option.bind_none]

/-- What becomes of a character of a submitted name. -/
def storedChar (c : Char) : Option Char := if c = ' ' then none else some c.toLower

theorem toList_downcase_deleteSpaces (s : String) :
    (downcase (deleteSpaces s)).toList = s.toList.filterMap storedChar := by
  rw [downcase, deleteSpaces, String.toList_ofList, String.toList_ofList]
  induction s.toList with
  | nil => rfl
  | cons c cs ih =>
    by_cases hc : c = ' '
    · simpa [hc, storedChar] using ih
    · simpa [hc, storedChar] using ih

theorem cleanedName_inputValue_empty : cleanedName (inputValue refs "") = none := by
  have hempty : Plain refs "".toList := trivial
  rw [inputValue_of_plain hempty]
  rfl

/-- A name comes back when nothing in it is special inside a quoted value. -/
theorem cleanedName_inputValue_iff {name : String} (hne : name ≠ "") (hlower : downcase name = name)
    (hspace : ' ' ∉ name.toList) :
    cleanedName (inputValue refs name) = some name ↔ Plain refs name.toList := by
  constructor
  · intro h
    rw [cleanedName] at h
    split_ifs at h
    have hchars := congrArg String.toList (Option.some.inj h)
    rw [toList_downcase_deleteSpaces, inputValue, String.toList_ofList, attributeValue,
      takeWhile_page] at hchars
    exact plain_of_submitted (f := storedChar) (by decide) hchars
  · intro h
    rw [inputValue_of_plain h, cleanedName, if_neg hne, deleteSpaces_of_not_mem hspace, hlower]

theorem Names.shown_of_lookup {region account name : String} {names : OrderedMap String String}
    (hr : m.lookup region = some names) (ha : names.lookup account = some name) :
    m.shown region account = name := by
  simp [Names.shown, hr, ha]

theorem Names.shown_of_region_none {region : String} (hr : m.lookup region = none)
    (account : String) : m.shown region account = "" := by
  simp [Names.shown, hr]

theorem Names.shown_of_account_none {region account : String} {names : OrderedMap String String}
    (hr : m.lookup region = some names) (ha : names.lookup account = none) :
    m.shown region account = "" := by
  simp [Names.shown, hr, ha]

theorem cleanedAccounts_of_region_none {region : String} (hr : m.lookup region = none) :
    cleanedAccounts (m.submittedAccounts refs region) = none := by
  rw [cleanedAccounts_eq_none]
  intro account
  rw [lookup_submittedAccounts_cleaned, Names.shown_of_region_none hr,
    cleanedName_inputValue_empty, ite_self]

/-- Plain names under the accounts of the form come back, and nothing else does. -/
theorem lookup_of_plain (he : m.Editable) {region : String} {names : OrderedMap String String}
    (hr : m.lookup region = some names)
    (hplain : ∀ account name, names.lookup account = some name → Plain refs name.toList)
    (account : String) :
    ((m.submittedAccounts refs region).lookup account).bind cleanedName =
      names.lookup account := by
  rw [lookup_submittedAccounts_cleaned]
  cases ha : names.lookup account with
  | none => rw [Names.shown_of_account_none hr ha, cleanedName_inputValue_empty, ite_self]
  | some name =>
    have hmem : account ∈ names.keys := by simp [OrderedMap.mem_keys, ha]
    obtain ⟨hne, hlower, hspace⟩ := he.names region names account name hr ha
    rw [if_pos ((he.accounts region names hr).2 account hmem), Names.shown_of_lookup hr ha,
      cleanedName_inputValue_iff refs hne hlower hspace]
    exact hplain account name ha

theorem cleanedAccounts_of_plain (he : m.Editable) {region : String}
    {names : OrderedMap String String} (hr : m.lookup region = some names)
    (hplain : ∀ account name, names.lookup account = some name → Plain refs name.toList) :
    ∃ cleaned, cleanedAccounts (m.submittedAccounts refs region) = some cleaned ∧
      names.Same cleaned := by
  have hlookup := lookup_of_plain refs he hr hplain
  cases hc : cleanedAccounts (m.submittedAccounts refs region) with
  | none =>
    -- the region has a name, which comes back
    rw [cleanedAccounts_eq_none] at hc
    refine absurd ?_ (he.accounts region names hr).1
    rw [OrderedMap.entries_eq_nil]
    intro account
    rw [← hlookup account, hc account]
  | some cleaned =>
    refine ⟨cleaned, rfl, fun account => ?_⟩
    rw [lookup_of_cleanedAccounts hc, hlookup account]

/-- Every name that is stored after the round trip as it was before is plain. -/
theorem plain_of_same (he : m.Editable) {region account name : String}
    {names cleaned : OrderedMap String String} (hr : m.lookup region = some names)
    (ha : names.lookup account = some name)
    (hc : cleanedAccounts (m.submittedAccounts refs region) = some cleaned)
    (hsame : names.Same cleaned) : Plain refs name.toList := by
  have hstored := hsame account
  have hmem : account ∈ names.keys := by simp [OrderedMap.mem_keys, ha]
  rw [ha, lookup_of_cleanedAccounts hc, lookup_submittedAccounts_cleaned,
    if_pos ((he.accounts region names hr).2 account hmem), Names.shown_of_lookup hr ha] at hstored
  obtain ⟨hne, hlower, hspace⟩ := he.names region names account name hr ha
  exact (cleanedName_inputValue_iff refs hne hlower hspace).mp hstored.symm

theorem mem_formRegions {region : String} (h : region ∈ preparedRegions) (hpbe : region ≠ "PBE") :
    region ∈ formRegions := by
  simpa [preparedRegions, formRegions, hpbe] using h

/-- Of the regions that the page prepares, the form has no inputs for `PBE`. -/
theorem lookup_submitted_pbe : (m.submitted refs).cleaned.lookup "PBE" = none := by
  rw [lookup_submitted_cleaned, if_neg (by decide)]

end

/-- A round trip through the edit form keeps the gender and the names exactly when none of the
names is under `PBE`, and all of them stand for themselves inside a quoted attribute. This is
about pages with the markup of the template, so there is no quote in the other attributes. -/
theorem edit_loses_nothing_iff (password : String) (stored : Streamer) (m : Names)
    (_ : stored.Unquoted) (hm : stored.summonerNames = some m.toHash) (he : m.Editable) :
    LosesNothing conv refs password stored ↔
      "PBE" ∉ m.keys ∧ ∀ region names account name, m.lookup region = some names →
        names.lookup account = some name → Plain refs name.toList := by
  rw [losesNothing_iff_names conv refs hm, sameNames_toHash]
  constructor
  · intro h
    constructor
    · intro hpbe
      rcases h "PBE" with ⟨hnone, _⟩ | ⟨_, cleaned, _, hcleaned, _⟩
      · simp [OrderedMap.mem_keys, hnone] at hpbe
      · simp [lookup_submitted_pbe] at hcleaned
    · intro region names account name hr ha
      rcases h region with ⟨hnone, _⟩ | ⟨x, cleaned, hx, hcleaned, hsame⟩
      · simp [hnone] at hr
      · obtain rfl : names = x := Option.some.inj (hr.symm.trans hx)
        rw [lookup_submitted_cleaned] at hcleaned
        split_ifs at hcleaned
        exact plain_of_same refs he hr ha hcleaned hsame
  · rintro ⟨hpbe, hplain⟩ region
    cases hr : m.lookup region with
    | none =>
      refine .inl ⟨rfl, ?_⟩
      rw [lookup_submitted_cleaned, cleanedAccounts_of_region_none refs hr, ite_self]
    | some names =>
      have hmem : region ∈ m.keys := by simp [OrderedMap.mem_keys, hr]
      have hform := mem_formRegions (he.regions region hmem) fun h => hpbe (h ▸ hmem)
      obtain ⟨cleaned, hc, hsame⟩ := cleanedAccounts_of_plain refs he hr fun account name =>
        hplain region names account name hr
      refine .inr ⟨names, cleaned, rfl, ?_, hsame⟩
      rw [lookup_submitted_cleaned, if_pos hform, hc]

/-! ### One name -/

def mainOnly (region name : String) : Names :=
  OrderedMap.empty.set region (OrderedMap.empty.set "Main" name)

def dyrusIn (region : String) : Streamer where
  name := some "dyrus"
  summonerNames := some (mainOnly region "dyrus").toHash
  gender := some 1
  team := some "tsm"
  rank := none

/-- No references: there is no `&` in what is shown. -/
def noReferences : References where
  read _ := none
  within := by simp

theorem lookup_mainOnly (region r : String) :
    (mainOnly region "dyrus").lookup r =
      if r = region then some (OrderedMap.empty.set "Main" "dyrus") else none := by
  simp [mainOnly]

theorem editable_mainOnly {region : String} (hr : region ∈ preparedRegions) :
    (mainOnly region "dyrus").Editable where
  regions r hm := by
    rw [OrderedMap.mem_keys, lookup_mainOnly] at hm
    split_ifs at hm with h
    · exact h ▸ hr
    · simp at hm
  accounts r names hl := by
    rw [lookup_mainOnly] at hl
    split_ifs at hl
    cases hl
    exact ⟨List.cons_ne_nil _ _, by decide⟩
  names r names account name hl ha := by
    rw [lookup_mainOnly] at hl
    split_ifs at hl
    cases hl
    simp only [OrderedMap.lookup_set, OrderedMap.lookup_empty] at ha
    split_ifs at ha
    cases ha
    decide

theorem edit_loses_nothing_dyrus :
    LosesNothing noConversions noReferences "secret" (dyrusIn "NA") := by
  have hunquoted : (dyrusIn "NA").Unquoted := by simp [Streamer.Unquoted, dyrusIn]
  refine (edit_loses_nothing_iff noConversions noReferences "secret" (dyrusIn "NA")
    (mainOnly "NA" "dyrus") hunquoted rfl (editable_mainOnly (by decide))).mpr ⟨by decide, ?_⟩
  intro region names account name hr ha
  rw [lookup_mainOnly] at hr
  split_ifs at hr
  cases hr
  simp only [OrderedMap.lookup_set, OrderedMap.lookup_empty] at ha
  split_ifs at ha
  cases ha
  exact plain_of_forall (by simp)

/-- A name under `PBE` is prepared for the page, not shown there, and erased. -/
theorem pbe_names_erased :
    (mainOnly "PBE" "dyrus").Editable ∧
      ¬LosesNothing noConversions noReferences "secret" (dyrusIn "PBE") := by
  refine ⟨editable_mainOnly (by decide), ?_⟩
  rw [losesNothing_iff_names noConversions noReferences (m := mainOnly "PBE" "dyrus") rfl,
    sameNames_toHash]
  intro h
  rcases h "PBE" with ⟨hnone, _⟩ | ⟨_, cleaned, _, hcleaned, _⟩
  · simp [lookup_mainOnly] at hnone
  · simp [lookup_submitted_pbe] at hcleaned

end LolStreams
