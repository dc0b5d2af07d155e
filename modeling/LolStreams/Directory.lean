import LolStreams.Resave
import LolStreams.Routes
import LolStreams.Serialisable

/-! The stored streamers over whole runs of the server. Each document has a history of its own;
and for the requests of the edit page the store is a directory, which has a profile with
canonical names under a name. -/
namespace LolStreams

open Ruby

/-! ### Runs of the server -/

section

variable (conv : Conversions) (password : Option String)

/-- Serve requests one after the other. -/
def serveAll (store : List Streamer) : List Request → List Streamer × List Response
  | [] => (store, [])
  | req :: reqs =>
    let served := serve conv password store req
    let rest := serveAll served.1 reqs
    (rest.1, served.2 :: rest.2)

/-- The document that a request is about to edit. -/
def target (store : List Streamer) (req : Request) : Option ℕ :=
  match dispatch (effectiveVerb req) req.path with
  | some (.putBleh, some name) => findBy store name
  | _ => none

/-- The requests whose target is a given document when their turn comes. -/
def aimedAt (i : ℕ) (store : List Streamer) : List Request → List Request
  | [] => []
  | req :: reqs =>
    let rest := aimedAt i (serve conv password store req).1 reqs
    if target store req = some i then req :: rest else rest

/-- The edits of one document, one after the other. -/
def editedBy (doc : Streamer) (reqs : List Request) : Streamer :=
  reqs.foldl (fun d req => (edit conv password (editRequest req.params) d).1) doc

theorem findBy_some {store : List Streamer} {name : String} {i : ℕ}
    (h : findBy store name = some i) : ∃ doc, store[i]? = some doc ∧ doc.name = some name := by
  obtain ⟨hlt, hname, _⟩ := List.findIdx?_eq_some_iff_getElem.mp h
  exact ⟨store[i], List.getElem?_eq_getElem hlt, by simpa using hname⟩

theorem putBleh_missing {store : List Streamer} {name : String}
    (h : findBy store name = none) (req : Request) :
    putBleh conv password store name req = (store, .raised .documentNotFound) := by
  unfold putBleh
  rw [h]

theorem putBleh_found {store : List Streamer} {name : String} {i : ℕ} {doc : Streamer}
    (h : findBy store name = some i) (hdoc : store[i]? = some doc) (req : Request) :
    putBleh conv password store name req =
      (store.set i (edit conv password (editRequest req.params) doc).1,
        .edited (edit conv password (editRequest req.params) doc).2) := by
  unfold putBleh
  rw [h]
  simp only [hdoc]

theorem getElem_putBleh (store : List Streamer) (name : String) (req : Request) (i : ℕ) :
    (putBleh conv password store name req).1[i]? = store[i]?.map fun doc =>
      if findBy store name = some i then (edit conv password (editRequest req.params) doc).1
      else doc := by
  cases hfind : findBy store name with
  | none =>
    rw [putBleh_missing conv password hfind]
    simp
  | some j =>
    obtain ⟨doc, hdoc, _⟩ := findBy_some hfind
    rw [putBleh_found conv password hfind hdoc, List.getElem?_set]
    by_cases hij : j = i
    · subst hij
      obtain ⟨hlt, rfl⟩ := List.getElem?_eq_some_iff.mp hdoc
      simp [hlt]
    · simp [hij]

theorem getElem_serve (store : List Streamer) (req : Request) (i : ℕ) :
    (serve conv password store req).1[i]? = store[i]?.map fun doc =>
      if target store req = some i then (edit conv password (editRequest req.params) doc).1
      else doc := by
  unfold serve target
  rcases dispatch (effectiveVerb req) req.path with _ | ⟨handler, _ | name⟩
  · simp
  · cases handler <;> simp
  · cases handler <;> simp [getElem_putBleh]

/-- A document is in the end what the requests that found it have made of it, one after the
other, whatever happens to the rest of the store. -/
theorem document_history (store : List Streamer) (reqs : List Request) (i : ℕ) :
    (serveAll conv password store reqs).1[i]? = store[i]?.map fun doc =>
      editedBy conv password doc (aimedAt conv password i store reqs) := by
  induction reqs generalizing store with
  | nil => simp [serveAll, aimedAt, editedBy]
  | cons req reqs ih =>
    have hrest := ih (serve conv password store req).1
    rw [getElem_serve, Option.map_map] at hrest
    rw [serveAll, hrest, aimedAt]
    congr 1
    funext doc
    by_cases ht : target store req = some i
    · simp [ht, editedBy]
    · simp [ht]

theorem target_named {store : List Streamer} {req : Request} {i : ℕ}
    (h : target store req = some i) : ∃ name doc,
      dispatch (effectiveVerb req) req.path = some (.putBleh, some name) ∧
        store[i]? = some doc ∧ doc.name = some name := by
  unfold target at h
  split at h
  · rename_i name hd
    obtain ⟨doc, hdoc, hname⟩ := findBy_some h
    exact ⟨name, doc, hd, hdoc, hname⟩
  · cases h

variable {conv} {password}

/-- What every authorised edit keeps of a document holds of all documents throughout. -/
theorem serveAll_invariant {P : Streamer → Prop} {store : List Streamer} {reqs : List Request}
    (hstore : ∀ doc ∈ store, P doc)
    (hedit : ∀ req ∈ reqs, authorised password (editRequest req.params) = true → ∀ doc, P doc →
      P (edit conv password (editRequest req.params) doc).1) :
    ∀ doc ∈ (serveAll conv password store reqs).1, P doc := by
  induction reqs generalizing store with
  | nil => exact hstore
  | cons req reqs ih =>
    refine ih ?_ fun r hr => hedit r (List.mem_cons_of_mem _ hr)
    intro doc hdoc
    obtain ⟨i, hi⟩ := List.mem_iff_getElem?.mp hdoc
    rw [getElem_serve, Option.map_eq_some_iff] at hi
    obtain ⟨before, hbefore, rfl⟩ := hi
    have hp := hstore before (List.mem_of_getElem? hbefore)
    split_ifs
    · by_cases hauth : authorised password (editRequest req.params) = true
      · exact hedit req List.mem_cons_self hauth before hp
      · rw [edit_unauthorised conv (by simpa using hauth)]
        exact hp
    · exact hp

/-- A document stays as it is while no authorised request names it. -/
theorem unnamed_document_kept {store : List Streamer} {reqs : List Request} {i : ℕ}
    {doc : Streamer} (hdoc : store[i]? = some doc)
    (h : ∀ req ∈ reqs, ∀ name,
      dispatch (effectiveVerb req) req.path = some (.putBleh, some name) →
        authorised password (editRequest req.params) = true → doc.name ≠ some name) :
    (serveAll conv password store reqs).1[i]? = some doc := by
  induction reqs generalizing store with
  | nil => exact hdoc
  | cons req reqs ih =>
    refine ih ?_ fun r hr => h r (List.mem_cons_of_mem _ hr)
    rw [getElem_serve, hdoc, Option.map_some]
    split_ifs with ht
    · obtain ⟨name, found, hd, hfound, hname⟩ := target_named ht
      obtain rfl : doc = found := Option.some.inj (hdoc.symm.trans hfound)
      have hno : authorised password (editRequest req.params) = false := by
        by_contra hyes
        exact h req List.mem_cons_self name hd (by simpa using hyes) hname
      rw [edit_unauthorised conv hno]
    · rfl

end

/-! ### The directory -/

/-- What is known of a streamer. -/
structure Profile where
  team : Option String
  gender : Option ℤ
  rank : Option String
  names : Names
  canonical : names.Canonical

/-- A form without names that consist of spaces only. -/
structure PlainForm extends EditForm where
  noBlank : names.NoBlank

abbrev Directory := String → Option Profile

inductive DirectoryEvent
  | look (name : String)
  | edit (name : String) (form : PlainForm)
  | refused (name : String)
  | other

inductive DirectoryAnswer
  | unknown
  | page (profile : Profile)
  | done
  | other

section

variable (conv : Conversions) (password : Option String)

/-- The rank is not on the form. -/
def Profile.edited (form : PlainForm) (profile : Profile) : Profile where
  team := some form.team
  gender := mongoizeInteger conv (.str form.gender)
  rank := profile.rank
  names := form.names.cleaned
  canonical := canonical_cleaned form.noBlank

namespace Directory

def serve (d : Directory) : DirectoryEvent → Directory × DirectoryAnswer
  | .look name =>
    match d name with
    | none => (d, .unknown)
    | some profile => (d, .page profile)
  | .edit name form =>
    match d name with
    | none => (d, .unknown)
    | some profile => (Function.update d name (some (profile.edited conv form)), .done)
  | .refused name =>
    match d name with
    | none => (d, .unknown)
    | some _ => (d, .done)
  | .other => (d, .other)

def serveAll (d : Directory) : List DirectoryEvent → Directory × List DirectoryAnswer
  | [] => (d, [])
  | e :: es =>
    let served := d.serve conv e
    let rest := serveAll served.1 es
    (rest.1, served.2 :: rest.2)

end Directory

/-- The document has the profile, its names in any order. -/
structure Streamer.Has (doc : Streamer) (profile : Profile) : Prop where
  team : doc.team = profile.team
  gender : doc.gender = profile.gender
  rank : doc.rank = profile.rank
  names : sameNames doc.summonerNames (some profile.names.toHash) = true

/-- The document that is found under a name. -/
def stored (store : List Streamer) (name : String) : Option Streamer :=
  (findBy store name).bind fun i => store[i]?

def Represents (store : List Streamer) (d : Directory) : Prop :=
  ∀ name, Option.Rel Streamer.Has (stored store name) (d name)

/-- What a request means for the directory. An edit submits a form, with the password. -/
inductive Means (req : Request) : DirectoryEvent → Prop
  | look {name : String}
      (h : dispatch (effectiveVerb req) req.path = some (.showBleh, some name)) :
      Means req (.look name)
  | edit {name : String} {form : PlainForm}
      (h : dispatch (effectiveVerb req) req.path = some (.putBleh, some name))
      (hform : editRequest req.params = form.request password) : Means req (.edit name form)
  | refused {name : String}
      (h : dispatch (effectiveVerb req) req.path = some (.putBleh, some name))
      (hauth : authorised password (editRequest req.params) = false) : Means req (.refused name)
  | other (h : ∀ name,
      dispatch (effectiveVerb req) req.path ≠ some (.showBleh, some name) ∧
        dispatch (effectiveVerb req) req.path ≠ some (.putBleh, some name)) : Means req .other

/-- The answer of the server says what the directory says. -/
inductive Says : Response → DirectoryAnswer → Prop
  | unknown : Says (.raised .documentNotFound) .unknown
  | page {doc : Streamer} {profile : Profile} (h : doc.Has profile) :
      Says (.editPage (prepare doc)) (.page profile)
  | done : Says (.edited (.finished none)) .done
  | notFound : Says .notFound .other
  | other : Says .other .other

end

section

variable {conv : Conversions} {password : Option String} {store : List Streamer} {name : String}

theorem findBy_cons (doc : Streamer) (store : List Streamer) (name : String) :
    findBy (doc :: store) name =
      if doc.name = some name then some 0 else (findBy store name).map (· + 1) := by
  simp [findBy, List.findIdx?_cons]

theorem stored_cons (doc : Streamer) (store : List Streamer) (name : String) :
    stored (doc :: store) name = if doc.name = some name then some doc else stored store name := by
  unfold stored
  rw [findBy_cons]
  split_ifs
  · rfl
  · cases findBy store name <;> rfl

/-- Replacing the document under a name by one of the same name. -/
theorem stored_set {i : ℕ} {doc new : Streamer} (hi : findBy store name = some i)
    (hdoc : store[i]? = some doc) (hname : new.name = doc.name) (other : String) :
    stored (store.set i new) other = if other = name then some new else stored store other := by
  induction store generalizing i with
  | nil => cases hi
  | cons first store ih =>
    rw [findBy_cons] at hi
    by_cases hfirst : first.name = some name
    · rw [if_pos hfirst] at hi
      cases hi
      cases hdoc
      rw [List.set_cons_zero, stored_cons, stored_cons, hname, hfirst]
      by_cases ho : other = name
      · simp [ho]
      · simp [ho, Ne.symm ho]
    · rw [if_neg hfirst] at hi
      obtain ⟨j, hj, rfl⟩ := Option.map_eq_some_iff.mp hi
      rw [List.set_cons_succ, stored_cons, stored_cons, ih hj hdoc]
      by_cases ho : other = name
      · simp [ho, hfirst]
      · simp [ho]

theorem has_edited {doc : Streamer} {profile : Profile} (h : doc.Has profile) (form : PlainForm) :
    (edit conv password (form.request password) doc).1.Has (profile.edited conv form) := by
  have hshown := shown_edit conv password form.toEditForm doc
  have hrecord := sameRecord_write conv form.toEditForm doc doc
  rw [← edit_eq_write conv password] at hrecord
  exact ⟨hshown.team, hshown.gender, hrecord.2.trans h.rank, hshown.names⟩

theorem Represents.missing {d : Directory} (h : Represents store d) (hnone : d name = none) :
    findBy store name = none := by
  have hrel := h name
  rw [hnone] at hrel
  cases hfind : findBy store name with
  | none => rfl
  | some i =>
    obtain ⟨doc, hdoc, _⟩ := findBy_some hfind
    simp [stored, hfind, hdoc] at hrel

theorem Represents.found {d : Directory} {profile : Profile} (h : Represents store d)
    (hsome : d name = some profile) : ∃ i doc, findBy store name = some i ∧
      store[i]? = some doc ∧ doc.Has profile := by
  have hrel := h name
  rw [hsome] at hrel
  cases hfind : findBy store name with
  | none => simp [stored, hfind] at hrel
  | some i =>
    obtain ⟨doc, hdoc, _⟩ := findBy_some hfind
    simp only [stored, hfind, Option.bind_some, hdoc, Option.rel_some_some] at hrel
    exact ⟨i, doc, rfl, hdoc, hrel⟩

variable (conv) in
/-- One request does to the store what it means for the directory, and is answered so. -/
theorem represents_serve {d : Directory} (h : Represents store d) {req : Request}
    {e : DirectoryEvent} (hm : Means password req e) :
    Represents (serve conv password store req).1 (d.serve conv e).1 ∧
      Says (serve conv password store req).2 (d.serve conv e).2 := by
  cases hm with
  | @look name hd =>
    simp only [serve, hd, getBleh, Directory.serve]
    cases hname : d name with
    | none =>
      simp only [h.missing hname]
      exact ⟨h, .unknown⟩
    | some profile =>
      obtain ⟨i, doc, hi, hdoc, hhas⟩ := h.found hname
      simp only [hi, Option.bind_some, hdoc]
      exact ⟨h, .page hhas⟩
  | @edit name form hd hform =>
    simp only [serve, hd, Directory.serve]
    cases hname : d name with
    | none =>
      rw [putBleh_missing conv password (h.missing hname)]
      exact ⟨h, .unknown⟩
    | some profile =>
      obtain ⟨i, doc, hi, hdoc, hhas⟩ := h.found hname
      have hname' := (sameRecord_write conv form.toEditForm doc doc).1
      rw [← edit_eq_write conv password] at hname'
      have hdone : (edit conv password (form.request password) doc).2 = .finished none := by
        rw [edit_request]
      rw [putBleh_found conv password hi hdoc, hform, hdone]
      refine ⟨?_, .done⟩
      intro other
      rw [stored_set hi hdoc hname']
      by_cases ho : other = name
      · simpa [ho] using has_edited hhas form
      · simpa [ho] using h other
  | @refused name hd hauth =>
    simp only [serve, hd, Directory.serve]
    cases hname : d name with
    | none =>
      rw [putBleh_missing conv password (h.missing hname)]
      exact ⟨h, .unknown⟩
    | some profile =>
      obtain ⟨i, doc, hi, hdoc, _⟩ := h.found hname
      rw [putBleh_found conv password hi hdoc, edit_unauthorised conv hauth]
      obtain ⟨hlt, rfl⟩ := List.getElem?_eq_some_iff.mp hdoc
      rw [List.set_getElem_self]
      exact ⟨h, .done⟩
  | other hd =>
    simp only [serve, Directory.serve]
    rcases hdispatch : dispatch (effectiveVerb req) req.path with _ | ⟨handler, _ | name⟩
    · exact ⟨h, .notFound⟩
    · cases handler <;> exact ⟨h, .other⟩
    · obtain ⟨hshow, hput⟩ := hd name
      rw [hdispatch] at hshow hput
      cases handler with
      | showBleh => exact absurd rfl hshow
      | putBleh => exact absurd rfl hput
      | _ => exact ⟨h, .other⟩

end

/-- Over every run of look-ups, forms, refused edits and other requests the store goes on
representing a directory, and every answer says what the directory says. -/
theorem store_refines_directory {conv : Conversions} {password : Option String}
    {store : List Streamer} {d : Directory} {reqs : List Request} {es : List DirectoryEvent}
    (h : Represents store d) (hm : List.Forall₂ (Means password) reqs es) :
    Represents (serveAll conv password store reqs).1 (d.serveAll conv es).1 ∧
      List.Forall₂ Says (serveAll conv password store reqs).2 (d.serveAll conv es).2 := by
  induction hm generalizing store d with
  | nil => exact ⟨h, .nil⟩
  | cons he _ ih =>
    obtain ⟨hstep, hsays⟩ := represents_serve conv h he
    obtain ⟨hrest, hanswers⟩ := ih hstep
    exact ⟨hrest, .cons hsays hanswers⟩

/-! ### A visit -/

theorem lookup_oneAccount {name region : String} {names : OrderedMap String String}
    (h : (oneAccount name).lookup region = some names) :
    names = ⟨[("Main", name)], List.nodup_singleton _⟩ := by
  have hentries := Entries.mem_of_lookup h
  simp only [oneAccount, List.mem_singleton, Prod.mk.injEq] at hentries
  exact hentries.2

theorem name_of_oneAccount {name region account found : String} {names : OrderedMap String String}
    (hr : (oneAccount name).lookup region = some names) (ha : names.lookup account = some found) :
    found = name := by
  rw [lookup_oneAccount hr] at ha
  have hentries := Entries.mem_of_lookup ha
  simp only [List.mem_singleton, Prod.mk.injEq] at hentries
  exact hentries.2

def unattachedProfile : Profile where
  team := some ""
  gender := some 1
  rank := none
  names := oneAccount "dyrus"
  canonical := by
    constructor
    · intro region names hr
      rw [lookup_oneAccount hr]
      exact List.cons_ne_nil _ _
    · intro region names account name hr ha
      rw [name_of_oneAccount hr ha]
      decide

def dyrusForm : PlainForm where
  toEditForm := teamAndNames .first
  noBlank := by
    intro region names account name hr ha _
    rw [name_of_oneAccount hr ha]
    exact ⟨'d', by simp, by simp⟩

def dyrusDirectory : Directory := fun name =>
  if name = "dyrus" then some unattachedProfile else none

/-- The browser sends the form as a `POST`. -/
def dyrusEdit : Request where
  verb := "POST"
  path := ["dyrus", "bleh"]
  query := []
  body := [("_method", .str "put"), ("streamer", .hash [("team", .str "tsm"),
    ("gender", .str "1"), ("summoner_names", .hash (oneAccount "dyrus").toHash)]),
    ("password", .str "secret")]
  overrideHeader := none

def visit : List Request :=
  [⟨"GET", ["dyrus", "bleh"], [], [], none⟩, dyrusEdit, ⟨"GET", ["tsm", "bleh"], [], [], none⟩]

def visitEvents : List DirectoryEvent := [.look "dyrus", .edit "dyrus" dyrusForm, .look "tsm"]

theorem represents_unattached : Represents [unattached] dyrusDirectory := by
  intro name
  rw [stored_cons, dyrusDirectory]
  by_cases hname : name = "dyrus"
  · subst hname
    exact .some ⟨rfl, rfl, rfl, sameNames_refl (oneAccount "dyrus")⟩
  · have hother : unattached.name ≠ some name := fun h => hname (Option.some.inj h).symm
    rw [if_neg hname, if_neg hother]
    exact .none

theorem means_visit : List.Forall₂ (Means (some "secret")) visit visitEvents := by
  refine .cons (.look rfl) (.cons (.edit rfl rfl) (.cons (.look rfl) .nil))

theorem store_refines_directory_dyrus :
    Represents (serveAll noConversions (some "secret") [unattached] visit).1
        (dyrusDirectory.serveAll noConversions visitEvents).1 ∧
      List.Forall₂ Says (serveAll noConversions (some "secret") [unattached] visit).2
        (dyrusDirectory.serveAll noConversions visitEvents).2 :=
  store_refines_directory represents_unattached means_visit

theorem unnamed_document_kept_dyrus :
    (serveAll noConversions (some "secret") [unattached, newcomer]
      [{ dyrusEdit with path := ["tsm", "bleh"] }]).1[0]? = some unattached := by
  refine unnamed_document_kept rfl ?_
  intro req hreq name hd _ hname
  rw [List.mem_singleton] at hreq
  subst hreq
  cases hname
  exact absurd hd (by decide)

end LolStreams
