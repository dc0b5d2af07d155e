import LolStreams.Directory
import LolStreams.Dispatch
import LolStreams.EditRoundTrip
import LolStreams.FailedEdit
import LolStreams.StreamLinks

/-! A visit to the edit page: calling it up, filling it in, submitting it and calling it up
again. What has been typed comes back with its names cleaned, whatever was stored before. -/
namespace LolStreams

open Ruby AttributeValue NestedParams UrlParsing

/-! ### The visit -/

/-- What a user has put into the form. -/
structure Typed where
  team : String
  gender : String
  name : String → String → String
  password : String

/-- The fields as the browser sends them. -/
def Typed.fields (typed : Typed) : List (String × String) :=
  [("_method", "put"), ("streamer[team]", typed.team), ("streamer[gender]", typed.gender)] ++
    (formRegions.flatMap fun region => formAccounts.map fun account =>
      (inputName region account, typed.name region account)) ++
    [("password", typed.password)]

def openPage (name : String) : Request where
  verb := "GET"
  path := [name, "bleh"]
  query := []
  body := []
  overrideHeader := none

/-- Where the browser posts the form of a page, as the template puts the name into `action`. -/
def formAction (refs : References) (page : Streamer) : String :=
  String.ofList (attributeValue refs (("/" ++ page.name.getD "" ++ "/bleh").toList ++ ['"', '>']))

/-- The segments of the path in which the form arrives, for a name whose characters may stand
in a URL. -/
def actionPath (refs : References) (page : Streamer) : Option (List String) :=
  ((UrlParsing.decode (pathname (octets (formAction refs page))).tail).splitOn slash).mapM
    PercentEncoding.readUtf8

/-- `<form action="/name/bleh" method="post">` -/
def submit (refs : References) (page : Streamer) (typed : Typed) : Option Request :=
  (actionPath refs page).bind fun path => (parseNested typed.fields).toOption.map fun params =>
    { verb := "POST", path := path, query := [], body := params, overrideHeader := none }

/-- What the next page holds of it. The password is asked for again. -/
def Typed.cleaned (typed : Typed) : Typed where
  team := typed.team
  gender := typed.gender
  name region account := downcase (deleteSpaces (typed.name region account))
  password := ""

/-- Between quotes, every text of the form stands for itself. -/
structure Typed.Literal (refs : References) (typed : Typed) : Prop where
  team : Plain refs typed.team.toList
  names : ∀ region ∈ formRegions, ∀ account ∈ formAccounts,
    Plain refs (typed.name region account).toList

@[simp] theorem cleaned_team (typed : Typed) : typed.cleaned.team = typed.team := by
  rw [Typed.cleaned]

@[simp] theorem cleaned_gender (typed : Typed) : typed.cleaned.gender = typed.gender := by
  rw [Typed.cleaned]

@[simp] theorem cleaned_name (typed : Typed) (region account : String) :
    typed.cleaned.name region account = downcase (deleteSpaces (typed.name region account)) := by
  rw [Typed.cleaned]

/-- Letters, digits and underscores, as names of streams are. -/
def WordName (name : String) : Prop := name ≠ "" ∧ ∀ c ∈ octets name, isWord c = true

/-- No text that the page puts between quotes ends there early. -/
def Unquoted (conv : Conversions) (page : Streamer) : Prop :=
  page.Unquoted ∧ ∀ region ∈ formRegions, ∀ account ∈ formAccounts, ∀ shown,
    shownName conv (page.summonerNames.getD []) region account = .ok shown → '"' ∉ shown.toList

/-- The options for the gender: the stored one, and the values that the template lists. -/
def genderOptions (doc : Streamer) : List String := [genderText doc.gender, "1", "0", "3", "4"]

/-! ### Pages that cannot be shown -/

/-- The page shows texts and hashes under the regions of the form, and raises on an array. -/
def Renderable (names : Option Hash) : Prop :=
  ∀ region ∈ formRegions, ∀ xs, (names.getD []).lookup region ≠ some (.arr xs)

section

variable (conv : Conversions)

theorem mapM_ok_iff {α β ε : Type} {f : α → Except ε β} {l : List α} :
    (∃ ys, l.mapM f = .ok ys) ↔ ∀ a ∈ l, ∃ b, f a = .ok b := by
  induction l with
  | nil => simp [pure, Except.pure]
  | cons a l ih =>
    rw [List.mapM_cons, List.forall_mem_cons, ← ih]
    cases f a with
    | error e => simp [bind, Except.bind]
    | ok b =>
      cases l.mapM f with
      | error e => simp [bind, Except.bind]
      | ok ys => simp [bind, Except.bind, pure, Except.pure]

theorem map_ok_iff {α β ε : Type} {f : α → β} {x : Except ε α} :
    (∃ b, x.map f = .ok b) ↔ ∃ a, x = .ok a := by
  cases x <;> simp [Except.map]

theorem shownName_ok_iff {names : Hash} {region : String} {v : Option Obj}
    (h : names.lookup region = some (filled v)) (account : String) :
    (∃ shown, shownName conv names region account = .ok shown) ↔ ∀ xs, v ≠ some (.arr xs) := by
  rw [shownName, h]
  cases v with
  | none => simp [filled]
  | some o =>
    cases o with
    | nil => simp [filled]
    | str s => simp [filled]
    | arr xs => simp [filled]
    | hash es =>
      simp only [filled]
      cases es.lookup account with
      | none => simp
      | some value => cases value <;> simp

/-- Only an array under a region of the form keeps the page from being shown. -/
theorem page_renders_iff (refs : References) (password : String) (doc : Streamer) :
    (∃ fields, submittedFields conv refs (prepare doc) password = .ok fields) ↔
      Renderable doc.summonerNames := by
  rw [submittedFields, map_ok_iff, nameInputs, map_ok_iff, mapM_ok_iff]
  refine forall₂_congr fun region hr => ?_
  have hlookup : ((prepare doc).summonerNames.getD []).lookup region =
      some (filled ((doc.summonerNames.getD []).lookup region)) := by
    simp only [prepare, Option.getD_some, lookup_prepareRegions,
      if_pos (formRegions_prepared region hr)]
  rw [mapM_ok_iff]
  simp only [nameInput, map_ok_iff, shownName_ok_iff conv hlookup]
  constructor
  · intro h
    exact h "Main" (by decide)
  · intro h account _
    exact h

end

/-! ### The names that are stored -/

/-- A stored document is made of values as Ruby has them. -/
def Streamer.WellFormed (doc : Streamer) : Prop :=
  ∀ names, doc.summonerNames = some names → (Obj.hash names).WellFormed

section

variable (conv : Conversions)

theorem wellFormed_save {saved doc stored : Streamer} (hdoc : doc.WellFormed)
    (hstored : stored.WellFormed) : (save saved doc stored).WellFormed := by
  intro names hnames
  simp only [save] at hnames
  split_ifs at hnames
  · exact hstored names hnames
  · exact hdoc names hnames

theorem wellFormed_write (form : EditForm) {loaded stored : Streamer} (h : stored.WellFormed) :
    (form.write conv loaded stored).WellFormed := by
  have hraw : (form.apply conv loaded).WellFormed := by
    intro names hnames
    cases hnames
    exact form.names.wellFormed
  refine wellFormed_save ?_ (wellFormed_save hraw h)
  intro names hnames
  cases hnames
  exact form.names.cleaned.wellFormed

/-- The page shows the names in whatever order they are stored. -/
theorem shownName_of_same {doc : Streamer} (hw : doc.WellFormed) {m : Names}
    (hsame : sameNames doc.summonerNames (some m.toHash) = true) {region account : String}
    (hr : region ∈ formRegions) (ha : account ∈ formAccounts) :
    shownName conv ((prepare doc).summonerNames.getD []) region account =
      .ok (m.shown region account) := by
  cases hd : doc.summonerNames with
  | none => simp [sameNames, hd] at hsame
  | some names =>
    have hnames := hw names hd
    rw [hd, sameNames] at hsame
    cases hnames with
    | hash hn hvalues =>
      have hlookup : ((prepare doc).summonerNames.getD []).lookup region =
          some (filled (names.lookup region)) := by
        simp only [prepare, hd, Option.getD_some, lookup_prepareRegions,
          if_pos (formRegions_prepared region hr)]
      rw [shownName, hlookup, Names.shown]
      rcases (Obj.eqv_hash hn m.nodup_toHash).mp hsame region with ⟨hnone, hm⟩ | ⟨v, w, hv, hm, hvw⟩
      · rw [Names.lookup_toHash, Option.map_eq_none_iff] at hm
        have hne : account.toList ≠ [] := by simpa using (isKey_formAccounts account ha).1
        simp [hnone, hm, filled, hne]
      · rw [Names.lookup_toHash, Option.map_eq_some_iff] at hm
        obtain ⟨accounts, hm, rfl⟩ := hm
        rw [hv, hm]
        cases hvalues _ (Entries.mem_of_lookup hv) with
        | hash hk _ =>
          rw [Obj.eqv_hash hk (nodup_accountsHash accounts)] at hvw
          rcases hvw account with ⟨hnone, hx⟩ | ⟨x, y, hx, hy, hxy⟩
          · rw [lookup_accountsHash, Option.map_eq_none_iff] at hx
            simp [filled, hnone, hx]
          · rw [lookup_accountsHash, Option.map_eq_some_iff] at hy
            obtain ⟨name, hy, rfl⟩ := hy
            rw [Obj.eqv_str_iff] at hxy
            subst hxy
            simp [filled, hx, hy]
        | _ => simp [Obj.eqv, Obj.sub] at hvw

end

/-- A name that is not stored is one that is shown as empty anyhow. -/
theorem getD_cleanedName (name : String) :
    (cleanedName name).getD "" = downcase (deleteSpaces name) := by
  unfold cleanedName
  split_ifs with h
  · rw [h]
    rfl
  · rfl

theorem shown_cleaned (text : String → String → String) {region account : String}
    (hr : region ∈ formRegions) (ha : account ∈ formAccounts) :
    (formNames text).cleaned.shown region account = downcase (deleteSpaces (text region account)) := by
  have hlookup : (OrderedMap.tabulate formAccounts (by decide) (text region)).lookup account =
      some (text region account) := by
    rw [OrderedMap.lookup_tabulate, if_pos ha]
  rw [Names.shown, Names.cleaned, OrderedMap.lookup_filterMap, formNames,
    OrderedMap.lookup_tabulate, if_pos hr, Option.bind_some, ← getD_cleanedName]
  cases hc : cleanedAccounts (OrderedMap.tabulate formAccounts (by decide) (text region)) with
  | none =>
    have hnone := cleanedAccounts_eq_none.mp hc account
    rw [hlookup, Option.bind_some] at hnone
    rw [hnone]
    rfl
  | some cleaned =>
    rw [Option.bind_some, lookup_of_cleanedAccounts hc, hlookup, Option.bind_some]

/-! ### The gender that is stored -/

theorem genderText_of_option (conv : Conversions) {doc : Streamer} {gender : String}
    (h : gender ∈ genderOptions doc) :
    genderText (mongoizeInteger conv (.str gender)) = gender := by
  simp only [genderOptions, List.mem_cons, List.not_mem_nil, or_false] at h
  rcases h with rfl | rfl | rfl | rfl | rfl
  · rw [mongoizeInteger_genderText]
  · rfl
  · rfl
  · rfl
  · rfl

/-! ### The request -/

theorem effectiveVerb_put {req : Request} (hverb : req.verb = "POST")
    (hmethod : req.body.lookup "_method" = some (.str "put")) : effectiveVerb req = "PUT" := by
  have hput : upcase "put" = "PUT" := by decide +kernel
  simp [effectiveVerb, methodOverride, hverb, hmethod, hput, httpMethods]

/-- What does not occur in any name of a stream. -/
theorem notMem_of_wordName {name : String} (h : WordName name) :
    ∀ c ∈ ['"', '\x00', '\r', '\n', '&', '/', '?', '#', '.'], c ∉ name.toList := by
  have hascii : ∀ c ∈ ['"', '\x00', '\r', '\n', '&', '/', '?', '#', '.'],
      ∃ d ∈ String.utf8EncodeChar c, isWord d = false := by
    simp [String.utf8EncodeChar, isWord]
  intro c hc hmem
  obtain ⟨d, hd, hword⟩ := hascii c hc
  have hin : d ∈ octets name := by
    rw [PercentEncoding.octets_eq_flatMap]
    exact List.mem_flatMap.mpr ⟨c, hmem, hd⟩
  rw [h.2 d hin] at hword
  cases hword

theorem fits_of_wordName {name : String} (h : WordName name) : Fits name :=
  ⟨h.1, notMem_of_wordName h '?' (by decide), notMem_of_wordName h '#' (by decide)⟩

theorem formAction_eq (refs : References) (page : Streamer) {name : String} (h : WordName name)
    (hname : page.name = some name) : formAction refs page = "/" ++ name ++ "/bleh" := by
  have hplain : Plain refs ("/" ++ name ++ "/bleh").toList := by
    refine plain_of_forall fun c hc => ?_
    rw [String.toList_append, String.toList_append, List.mem_append, List.mem_append] at hc
    have hsegment : ∀ d ∈ ['"', '\x00', '\r', '\n', '&'], d ≠ c := by
      rintro d hd rfl
      have hword : d ∉ name.toList :=
        notMem_of_wordName h d (List.mem_append_left ['/', '?', '#', '.'] hd)
      have hliteral : ∀ d ∈ ['"', '\x00', '\r', '\n', '&'], d ∉ "/".toList ∧ d ∉ "/bleh".toList := by
        simp
      rcases hc with (hc | hc) | hc
      · exact (hliteral d hd).1 hc
      · exact hword hc
      · exact (hliteral d hd).2 hc
    simp only [List.mem_cons, List.not_mem_nil, or_false, forall_eq_or_imp, forall_eq] at hsegment
    obtain ⟨hq, hz, hr, hn, ha⟩ := hsegment
    exact ⟨hq.symm, hz.symm, hr.symm, hn.symm, ha.symm⟩
  rw [formAction, hname, Option.getD_some, attributeValue_of_plain hplain, String.ofList_toList]

/-- The form of a streamer is posted to the edit route with the name. -/
theorem actionPath_eq (refs : References) (page : Streamer) {name : String} (h : WordName name)
    (hname : page.name = some name) : actionPath refs page = some [name, "bleh"] := by
  have hbleh : octets "bleh" = [98, 108, 101, 104] := by
    rw [PercentEncoding.octets_eq_flatMap]
    rfl
  have hword : PercentEncoding.encode inSegment (octets name) = octets name :=
    PercentEncoding.encode_of_plain fun c hc => inSegment_of_isWord (h.2 c hc)
  have haction : octets (formAction refs page) = encodedPath [name, "bleh"] := by
    have hlast : octets "/bleh" = slash :: octets "bleh" := octets_slash "bleh"
    have hbleh' : PercentEncoding.encode inSegment (octets "bleh") = octets "bleh" := by
      rw [hbleh]
      rfl
    rw [formAction_eq refs page h hname, octets_append, octets_slash, hlast]
    simp [encodedPath, hword, hbleh']
  have hslash : ∀ s ∈ [name, "bleh"], '/' ∉ s.toList := by
    simp [notMem_of_wordName h '/' (by decide)]
  have hdots : '.' ∉ name.toList := notMem_of_wordName h '.' (by decide)
  have hdouble : doubleDot (PercentEncoding.encode inSegment (octets name)) = false := by
    rw [Bool.eq_false_iff, Ne, doubleDot_encode rfl rfl]
    rintro rfl
    exact hdots (by decide)
  have hsingle : singleDot (PercentEncoding.encode inSegment (octets name)) = false := by
    rw [Bool.eq_false_iff, Ne, singleDot_encode rfl rfl]
    rintro rfl
    exact hdots (by decide)
  rw [actionPath, haction]
  apply resolved_arrives (List.cons_ne_nil _ _) hslash (List.cons_ne_nil _ _) hslash
  rw [List.map_cons, List.map_cons, List.map_singleton, List.map_singleton,
    resolveSegments_cons [] hdouble hsingle, resolveSegments_encode rfl rfl,
    if_neg (by decide), if_neg (by decide)]
  rfl

theorem submit_eq (refs : References) (page : Streamer) {name : String} (h : WordName name)
    (hname : page.name = some name) (typed : Typed) :
    ∃ req, submit refs page typed = some req ∧ effectiveVerb req = "PUT" ∧
      req.path = [name, "bleh"] ∧ editRequest req.params =
        EditForm.request (some typed.password) ⟨typed.team, typed.gender, formNames typed.name⟩ := by
  have hparsed := parseNested_fields typed.team typed.gender typed.password typed.name
  refine ⟨_, by rw [submit, actionPath_eq refs page h hname, Typed.fields, hparsed]; rfl, ?_, rfl, ?_⟩
  · exact effectiveVerb_put rfl rfl
  · exact editRequest_form _ _ _ _

theorem serve_openPage {conv : Conversions} {password : Option String} {store : List Streamer}
    {name : String} {doc : Streamer} (hfits : Fits name) (hne : name ≠ "streams")
    (h : stored store name = some doc) :
    serve conv password store (openPage name) = (store, .editPage (prepare doc)) := by
  have hverb : effectiveVerb (openPage name) = "GET" := rfl
  have hpath : (openPage name).path = [name, "bleh"] := rfl
  rw [serve, hverb, hpath, dispatch_showBleh hfits hne]
  simp only [getBleh]
  rw [stored] at h
  rw [h]

/-- The fields of a form whose texts come through the attributes as they are. -/
theorem submittedFields_of_literal (conv : Conversions) (refs : References) (page : Streamer)
    {typed : Typed} (hliteral : typed.Literal refs) (hteam : page.team = some typed.team)
    (hgender : genderText page.gender = typed.gender)
    (hnames : ∀ region ∈ formRegions, ∀ account ∈ formAccounts,
      shownName conv (page.summonerNames.getD []) region account =
        .ok (typed.name region account)) :
    submittedFields conv refs page typed.password = .ok typed.fields := by
  have hinput : ∀ region ∈ formRegions, ∀ account ∈ formAccounts,
      nameInput conv refs (page.summonerNames.getD []) region account =
        .ok (inputName region account, typed.name region account) := by
    intro region hr account ha
    rw [nameInput, hnames region hr account ha, Except.map,
      inputValue_of_plain (hliteral.names region hr account ha)]
  have hinputs : nameInputs conv refs (page.summonerNames.getD []) =
      .ok (formRegions.flatMap fun region => formAccounts.map fun account =>
        (inputName region account, typed.name region account)) := by
    rw [nameInputs, mapM_ok fun region hr => mapM_ok (hinput region hr)]
    rfl
  rw [submittedFields, hinputs, hteam, Option.getD_some, inputValue_of_plain hliteral.team,
    attributeValue_of_plain (plain_genderText refs page.gender), String.ofList_toList, hgender]
  rfl

/-- An authorised edit of a streamer leaves a document under the same name, with what the form
submits. -/
theorem stored_of_submitted (conv : Conversions) {password : Option String}
    {store : List Streamer} {name : String} {doc : Streamer} (hfits : Fits name)
    (hfound : stored store name = some doc) (hw : doc.WellFormed) {form : EditForm} {req : Request}
    (hverb : effectiveVerb req = "PUT") (hpath : req.path = [name, "bleh"])
    (hform : editRequest req.params = form.request password) :
    ∃ new, stored (serve conv password store req).1 name = some new ∧ form.Shown conv new ∧
      new.WellFormed := by
  obtain ⟨i, hi, hdoc⟩ := Option.bind_eq_some_iff.mp hfound
  obtain ⟨new, hnew⟩ : ∃ new, (edit conv password (form.request password) doc).1 = new := ⟨_, rfl⟩
  have hserved : (serve conv password store req).1 = store.set i new := by
    rw [serve, hverb, hpath, dispatch_putBleh_of_fits hfits]
    simp only [putBleh_found conv password hi hdoc, hform, ← hnew]
  have hwritten : form.write conv doc doc = new :=
    (edit_eq_write conv password form doc).symm.trans hnew
  have hsame : new.name = doc.name := by
    rw [← hwritten]
    exact (sameRecord_write conv form doc doc).1
  refine ⟨new, ?_, ?_, ?_⟩
  · rw [hserved, stored_set hi hdoc hsame, if_pos rfl]
  · rw [← hnew]
    exact shown_edit conv password form doc
  · rw [← hwritten]
    exact wellFormed_write conv form hw

/-- Whatever a user types into the form of a page and submits with the right password is in the
form of the page that is called up next: team and gender as they are, and each name in lower
case and without spaces. No text that is shown has a quote in it, so that the markup is the one
of the template. -/
theorem typed_is_shown_again (conv : Conversions) (refs : References) {store : List Streamer}
    {name : String} {doc : Streamer} (hword : WordName name) (hne : name ≠ "streams")
    (hfound : stored store name = some doc) (hw : doc.WellFormed)
    (hshown : Renderable doc.summonerNames) (_ : Unquoted conv (prepare doc)) {typed : Typed}
    (hgender : typed.gender ∈ genderOptions doc) (hliteral : typed.cleaned.Literal refs) :
    ∃ first req page,
      (serve conv (some typed.password) store (openPage name)).2 = .editPage first ∧
      (∃ fields, submittedFields conv refs first "" = .ok fields) ∧
      submit refs first typed = some req ∧
      (serve conv (some typed.password)
        (serve conv (some typed.password) store req).1 (openPage name)).2 = .editPage page ∧
      submittedFields conv refs page "" = .ok typed.cleaned.fields := by
  have hfits := fits_of_wordName hword
  have hname : doc.name = some name := by
    obtain ⟨i, hi, hdoc⟩ := Option.bind_eq_some_iff.mp hfound
    obtain ⟨found, hfind, hnamed⟩ := findBy_some hi
    rwa [Option.some.inj (hdoc.symm.trans hfind)]
  obtain ⟨req, hreq, hverb, hpath, hform⟩ :=
    submit_eq refs (prepare doc) hword hname typed
  obtain ⟨new, hstored, hkept, hwnew⟩ :=
    stored_of_submitted conv hfits hfound hw hverb hpath hform
  refine ⟨prepare doc, req, prepare new, ?_, ?_, hreq, ?_, ?_⟩
  · rw [serve_openPage hfits hne hfound]
  · exact (page_renders_iff conv refs "" doc).mpr hshown
  · rw [serve_openPage hfits hne hstored]
  · apply submittedFields_of_literal conv refs (prepare new) hliteral
    · rw [cleaned_team, show (prepare new).team = new.team from rfl, hkept.team]
    · rw [cleaned_gender, show (prepare new).gender = new.gender from rfl, hkept.gender]
      exact genderText_of_option conv hgender
    · intro region hr account ha
      rw [cleaned_name, shownName_of_same conv hwnew hkept.names hr ha,
        shown_cleaned typed.name hr ha]

def hideOnBush : Typed where
  team := "tsm"
  gender := "3"
  name region _ := if region = "NA" then "Hide on Bush" else ""
  password := "secret"

theorem typed_is_shown_again_hideOnBush :
    ∃ first req page,
      (serve noConversions (some "secret") [unattached] (openPage "dyrus")).2 = .editPage first ∧
      (∃ fields, submittedFields noConversions noReferences first "" = .ok fields) ∧
      submit noReferences first hideOnBush = some req ∧
      (serve noConversions (some "secret")
        (serve noConversions (some "secret") [unattached] req).1 (openPage "dyrus")).2 =
          .editPage page ∧
      submittedFields noConversions noReferences page "" = .ok hideOnBush.cleaned.fields := by
  have hword : WordName "dyrus" := by
    have hoctets : octets "dyrus" = [100, 121, 114, 117, 115] := by
      rw [PercentEncoding.octets_eq_flatMap]
      rfl
    refine ⟨by decide, ?_⟩
    rw [hoctets]
    simp [isWord]
  have hw : unattached.WellFormed := by
    intro names hnames
    cases hnames
    exact (oneAccount "dyrus").wellFormed
  have hrenders : Renderable unattached.summonerNames := by
    intro region _ xs hl
    have hm := Entries.mem_of_lookup hl
    simp [unattached, oneAccount, Names.toHash, Entries.mapVal] at hm
  have hunquoted : Unquoted noConversions (prepare unattached) := by
    refine ⟨⟨by decide, by decide⟩, ?_⟩
    intro region hr account ha shown hshown
    rw [shownName_prepare noConversions rfl hr ha] at hshown
    have hquoted : ∀ region ∈ formRegions, ∀ account ∈ formAccounts,
        '"' ∉ ((oneAccount "dyrus").shown region account).toList := by
      decide
    exact Except.ok.inj hshown ▸ hquoted region hr account ha
  have hliteral : hideOnBush.cleaned.Literal noReferences := by
    constructor
    · rw [cleaned_team]
      exact plain_of_forall (by simp [hideOnBush])
    · intro region _ account _
      have htext : (hideOnBush.cleaned.name region account).toList =
          if region = "NA" then ['h', 'i', 'd', 'e', 'o', 'n', 'b', 'u', 's', 'h'] else [] := by
        rw [cleaned_name, toList_downcase_deleteSpaces, hideOnBush]
        by_cases hregion : region = "NA"
        · simp only [hregion, if_true]
          decide
        · simp [hregion]
      rw [htext]
      split_ifs
      · exact plain_of_forall (by simp)
      · exact plain_of_forall (by simp)
  exact typed_is_shown_again noConversions noReferences hword (by decide) rfl hw hrenders
    hunquoted (by simp [hideOnBush, genderOptions]) hliteral

section

variable (conv : Conversions)

/-! ### Arrays in the names -/

theorem eachAccount_arr {value : Obj} {xs : List Obj} (h : eachAccount value = .ok (.arr xs)) :
    value = .arr xs := by
  cases value with
  | hash names =>
    simp only [eachAccount] at h
    cases hn : eachName names (Entries.keys names) <;> simp [hn, Except.map] at h
  | arr ys =>
    simp only [eachAccount] at h
    split_ifs at h
    cases h
    rfl
  | _ => cases h

/-- The clean-up brings no array about. -/
theorem arr_of_eachRegion {regions : List String} {live cleaned : Hash}
    (h : eachRegion live regions = .ok cleaned) {region : String} {xs : List Obj}
    (hx : cleaned.lookup region = some (.arr xs)) : live.lookup region = some (.arr xs) := by
  induction regions generalizing live with
  | nil =>
    cases h
    exact hx
  | cons r regions ih =>
    rw [eachRegion] at h
    cases hl : live.lookup r with
    | none =>
      rw [hl] at h
      exact ih h
    | some value =>
      simp only [hl] at h
      cases hv : eachAccount value with
      | error e => simp [hv] at h
      | ok names =>
        simp only [hv] at h
        by_cases he : names.eqv (.hash []) = true
        · rw [if_pos he] at h
          have hrest := ih h
          rw [Entries.lookup_erase, Entries.lookup_set] at hrest
          split_ifs at hrest with hr
          exact hrest
        · rw [if_neg he] at h
          have hrest := ih h
          rw [Entries.lookup_set] at hrest
          split_ifs at hrest with hr
          · rw [Option.some.inj hrest] at hv
            rw [hr, hl, eachAccount_arr hv]
          · exact hrest

/-- A request that submits no array under a region of the form. -/
def SubmitsNoArray (req : EditRequest) : Prop :=
  ∀ es names, req.streamer = .hash es → ("summoner_names", .hash names) ∈ es →
    ∀ region ∈ formRegions, ∀ xs, (region, .arr xs) ∉ names

theorem renderable_assign {doc d : Streamer} {field : String} {value : Obj}
    (hdoc : Renderable doc.summonerNames)
    (hvalue : ∀ names, field = "summoner_names" → value = .hash names → Renderable (some names))
    (h : assign conv doc field value = .ok d) : Renderable d.summonerNames := by
  unfold assign at h
  split at h
  · cases h
    exact hdoc
  · split at h
    · cases h
      exact fun _ _ _ hl => by cases hl
    · cases h
      exact hvalue _ rfl rfl
    · cases h
  · cases h
    exact hdoc
  · cases h
    exact hdoc
  · cases h
    exact hdoc
  · cases h

theorem renderable_assignEach {es : Hash} {doc d : Streamer} (hdoc : Renderable doc.summonerNames)
    (hes : ∀ names, ("summoner_names", .hash names) ∈ es → Renderable (some names))
    (h : assignEach conv doc es = .ok d) : Renderable d.summonerNames := by
  induction es generalizing doc with
  | nil =>
    cases h
    exact hdoc
  | cons e es ih =>
    rcases e with ⟨field, value⟩
    rw [assignEach] at h
    cases ha : assign conv doc field value with
    | error e => simp [ha] at h
    | ok next =>
      simp only [ha] at h
      refine ih ?_ (fun names hm => hes names (List.mem_cons_of_mem _ hm)) h
      refine renderable_assign conv hdoc ?_ ha
      rintro names rfl rfl
      exact hes names List.mem_cons_self

theorem renderable_assignAttributes {req : EditRequest} (hreq : SubmitsNoArray req)
    {doc d : Streamer} (hdoc : Renderable doc.summonerNames)
    (h : assignAttributes conv doc req.streamer = .ok d) : Renderable d.summonerNames := by
  cases hs : req.streamer with
  | nil =>
    rw [hs] at h
    cases h
    exact hdoc
  | str s =>
    simp only [hs, assignAttributes] at h
    split_ifs at h
    cases h
    exact hdoc
  | arr xs =>
    simp only [hs, assignAttributes] at h
    split_ifs at h
    cases h
    exact hdoc
  | hash es =>
    rw [hs, assignAttributes] at h
    refine renderable_assignEach conv hdoc ?_ h
    intro names hm region hr xs hl
    exact hreq es names hs hm region hr xs (Entries.mem_of_lookup hl)

theorem renderable_save {saved doc stored : Streamer} (hdoc : Renderable doc.summonerNames)
    (hstored : Renderable stored.summonerNames) :
    Renderable (save saved doc stored).summonerNames := by
  unfold save
  by_cases h : sameNames saved.summonerNames doc.summonerNames = true
  · simpa only [h, if_true] using hstored
  · simpa only [h, Bool.false_eq_true, if_false] using hdoc

theorem renderable_edit {password : Option String} {req : EditRequest} (hreq : SubmitsNoArray req)
    (hauth : authorised password req = true) {doc : Streamer}
    (hdoc : Renderable doc.summonerNames) :
    Renderable (edit conv password req doc).1.summonerNames := by
  cases ha : assignAttributes conv doc req.streamer with
  | error e => simpa [edit, advance, hauth, ha] using hdoc
  | ok d =>
    have hd : Renderable d.summonerNames := renderable_assignAttributes conv hreq hdoc ha
    have hfirst : Renderable (save doc d doc).summonerNames := renderable_save hd hdoc
    rw [edit_assigned conv hauth ha, advance]
    cases hn : d.summonerNames with
    | none => exact hfirst
    | some names =>
      simp only
      cases hc : cleanUp names with
      | error e => exact hfirst
      | ok cleaned =>
        refine renderable_save ?_ hfirst
        intro region hr xs hx
        rw [hn] at hd
        exact hd region hr xs (arr_of_eachRegion hc hx)

/-- As long as no authorised request submits an array under a region of the form, the edit
page of every streamer can be shown, whatever else is submitted and whatever raises. -/
theorem pages_go_on_rendering {password : Option String} {store : List Streamer}
    {reqs : List Request} (hstore : ∀ doc ∈ store, Renderable doc.summonerNames)
    (hreqs : ∀ req ∈ reqs, authorised password (editRequest req.params) = true →
      SubmitsNoArray (editRequest req.params)) (refs : References) (shown : String) :
    ∀ doc ∈ (serveAll conv password store reqs).1,
      ∃ fields, submittedFields conv refs (prepare doc) shown = .ok fields := by
  have hall : ∀ doc ∈ (serveAll conv password store reqs).1, Renderable doc.summonerNames := by
    refine serveAll_invariant hstore ?_
    intro req hreq hauth doc hdoc
    exact renderable_edit conv (hreqs req hreq hauth) hauth hdoc
  intro doc hdoc
  exact (page_renders_iff conv refs shown doc).mpr (hall doc hdoc)

end

/-- A string in the place of the accounts of a region, which the clean-up raises on. -/
def stringRegion : Request where
  verb := "PUT"
  path := ["dyrus", "bleh"]
  query := []
  body := [("streamer", .hash [("summoner_names", .hash [("NA", .str "dyrus")])]),
    ("password", .str "secret")]
  overrideHeader := none

theorem pages_go_on_rendering_stringRegion :
    ∃ doc, (serveAll noConversions (some "secret") [unattached] [stringRegion]).1 = [doc] ∧
      ∃ fields, submittedFields noConversions noReferences (prepare doc) "" = .ok fields := by
  obtain ⟨doc, hdoc⟩ :
      ∃ doc, (serveAll noConversions (some "secret") [unattached] [stringRegion]).1 = [doc] :=
    ⟨_, rfl⟩
  refine ⟨doc, hdoc, pages_go_on_rendering noConversions ?_ ?_ noReferences "" doc
    (hdoc ▸ List.mem_singleton_self doc)⟩
  · intro doc hdoc region _ xs hl
    rw [List.mem_singleton] at hdoc
    subst hdoc
    have hm := Entries.mem_of_lookup hl
    simp [unattached, oneAccount, Names.toHash, Entries.mapVal] at hm
  · intro req hreq _ es names hs hm region _ xs
    rw [List.mem_singleton] at hreq
    subst hreq
    cases hs
    simp only [List.mem_singleton, Prod.mk.injEq, Obj.hash.injEq, true_and] at hm
    subst hm
    simp

end LolStreams
