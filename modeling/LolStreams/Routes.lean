import LolStreams.EditHandler
import LolStreams.Runs

/-! The routes of the application and what each does to the stored streamers. -/
namespace LolStreams

open Ruby

inductive Handler
  | index
  | riot
  | auth
  | authCallback
  | streams
  | favorites
  | stream
  | user
  | showBleh
  | putBleh
  | follow
  | unfollow
  | logout
  deriving DecidableEq, Repr

inductive Segment
  | literal (s : String)
  | name
  deriving DecidableEq, Repr

/-- A pattern is split at its slashes; `slash` is a final `/?`. -/
structure Route where
  verb : String
  pattern : List Segment
  slash : Bool
  handler : Handler
  deriving DecidableEq, Repr

/-- `get` also answers `HEAD`. -/
def getRoute (pattern : List Segment) (slash : Bool) (handler : Handler) : List Route :=
  [⟨"GET", pattern, slash, handler⟩, ⟨"HEAD", pattern, slash, handler⟩]

def putRoute (pattern : List Segment) (handler : Handler) : List Route :=
  [⟨"PUT", pattern, false, handler⟩]

/-- In the order of their definition. -/
def routes : List Route :=
  getRoute [.literal ""] false .index ++
  getRoute [.literal "riot.html"] false .riot ++
  getRoute [.literal "auth"] false .auth ++
  getRoute [.literal "auth", .literal "callback"] false .authCallback ++
  getRoute [.literal "streams"] true .streams ++
  getRoute [.literal "favorites"] true .favorites ++
  getRoute [.literal "streams", .name] true .stream ++
  getRoute [.literal "user"] true .user ++
  getRoute [.name, .literal "bleh"] false .showBleh ++
  putRoute [.name, .literal "bleh"] .putBleh ++
  putRoute [.literal "follow"] .follow ++
  putRoute [.literal "unfollow"] .unfollow ++
  putRoute [.literal "logout"] .logout

/-- A request as the server receives it: the decoded path split at its slashes, the parsed
query string and form body, and the method override header. -/
structure Request where
  verb : String
  path : List String
  query : Hash
  body : Hash
  overrideHeader : Option String

/-- The body wins over the query string. -/
def Request.params (req : Request) : Hash :=
  req.body.foldl (fun params e => Entries.set e.1 e.2 params) req.query

def httpMethods : List String :=
  ["GET", "HEAD", "PUT", "POST", "DELETE", "OPTIONS", "PATCH", "LINK", "UNLINK"]

def upcase (s : String) : String := String.ofList (s.toList.map Char.toUpper)

/-- `req.POST["_method"] || env["HTTP_X_HTTP_METHOD_OVERRIDE"]`, as text; an array or a hash
prints as no method. -/
def methodOverride (req : Request) : String :=
  match req.body.lookup "_method" with
  | none => req.overrideHeader.getD ""
  | some .nil => req.overrideHeader.getD ""
  | some (.str s) => s
  | some _ => ""

/-- The verb after `Rack::MethodOverride`. -/
def effectiveVerb (req : Request) : String :=
  if req.verb = "POST" ∧ upcase (methodOverride req) ∈ httpMethods then
    upcase (methodOverride req)
  else req.verb

/-- A named segment matches `[^/?#]+`. Returns the captured name, if there is one. -/
def matchPattern : List Segment → List String → Option (Option String)
  | [], [] => some none
  | .literal s :: pattern, x :: path => if x = s then matchPattern pattern path else none
  | .name :: pattern, x :: path =>
    if x ≠ "" ∧ '?' ∉ x.toList ∧ '#' ∉ x.toList then
      (matchPattern pattern path).map fun _ => some x
    else none
  | _, _ => none

def Route.captures (route : Route) (verb : String) (path : List String) :
    Option (Option String) :=
  if route.verb = verb then
    match matchPattern route.pattern path with
    | some name => some name
    | none =>
      if route.slash ∧ path.getLast? = some "" then matchPattern route.pattern path.dropLast
      else none
  else none

/-- The first route that matches, with the captured name. -/
def dispatch (verb : String) (path : List String) : Option (Handler × Option String) :=
  routes.findSome? fun route =>
    (route.captures verb path).map fun name => (route.handler, name)

inductive Response
  | notFound
  | raised (e : Exn)
  | editPage (doc : Streamer)
  | edited (progress : Progress)
  | other

/-- `Streamer.find_by(name: name)` -/
def findBy (store : List Streamer) (name : String) : Option ℕ :=
  store.findIdx? fun doc => doc.name = some name

variable (conv : Conversions) (password : Option String)

def getBleh (store : List Streamer) (name : String) : Response :=
  match (findBy store name).bind (store[·]?) with
  | none => .raised .documentNotFound
  | some loaded => .editPage (prepare loaded)

def putBleh (store : List Streamer) (name : String) (req : Request) : List Streamer × Response :=
  match findBy store name with
  | none => (store, .raised .documentNotFound)
  | some i =>
    match store[i]? with
    | none => (store, .raised .documentNotFound)
    | some stored =>
      let r := edit conv password (editRequest req.params) stored
      (store.set i r.1, .edited r.2)

/-- No handler but the two of `/:name/bleh` mentions the model. -/
def serve (store : List Streamer) (req : Request) : List Streamer × Response :=
  match dispatch (effectiveVerb req) req.path with
  | none => (store, .notFound)
  | some (.showBleh, some name) => (store, getBleh store name)
  | some (.putBleh, some name) => putBleh conv password store name req
  | some _ => (store, .other)

/-- The request is a `PUT /:name/bleh` with the configured password as parameter. -/
def Request.MayEdit (req : Request) : Prop :=
  effectiveVerb req = "PUT" ∧ (∃ name, req.path = [name, "bleh"]) ∧
    ∃ p, password = some p ∧ req.params.lookup "password" = some (.str p)

/-- Whatever requests have been served, the next one changes the store only if it may. -/
def OnlyAuthorisedEdits : Prop :=
  ∀ start store, Runs.Reaches (fun s req => some (serve conv password s req).1) start store →
    ∀ req, (serve conv password store req).1 ≠ store → req.MayEdit password

/-! ### The one route that writes -/

theorem putBleh_route : ∀ route ∈ routes, route.handler = .putBleh →
    route = ⟨"PUT", [.name, .literal "bleh"], false, .putBleh⟩ := by decide

theorem matchPattern_name_bleh {path : List String} {name : String}
    (h : matchPattern [.name, .literal "bleh"] path = some (some name)) : path = [name, "bleh"] := by
  rcases path with _ | ⟨x, _ | ⟨y, _ | ⟨z, rest⟩⟩⟩
  · simp [matchPattern] at h
  · simp [matchPattern] at h
  · simp only [matchPattern, Option.ite_none_right_eq_some, Option.map_eq_some_iff] at h
    obtain ⟨_, _, ⟨rfl, _⟩, hx⟩ := h
    rw [Option.some.inj hx]
  · simp [matchPattern] at h

theorem dispatch_putBleh {verb : String} {path : List String} {name : String}
    (h : dispatch verb path = some (.putBleh, some name)) :
    verb = "PUT" ∧ path = [name, "bleh"] := by
  obtain ⟨route, hroute, hmatch⟩ := List.exists_of_findSome?_eq_some h
  obtain ⟨captured, hcap, he⟩ := Option.map_eq_some_iff.mp hmatch
  obtain ⟨hhandler, rfl⟩ := Prod.mk.inj he
  rw [putBleh_route route hroute hhandler] at hcap
  simp only [Route.captures, Option.ite_none_right_eq_some] at hcap
  obtain ⟨hverb, hcap⟩ := hcap
  refine ⟨hverb.symm, ?_⟩
  cases hm : matchPattern [.name, .literal "bleh"] path with
  | none => simp [hm] at hcap
  | some captured =>
    simp only [hm, Option.some.injEq] at hcap
    exact matchPattern_name_bleh (hcap ▸ hm)

theorem authorised_iff {p : String} {req : Request} :
    authorised (some p) (editRequest req.params) = true ↔
      req.params.lookup "password" = some (.str p) := by
  simp only [authorised, editRequest, envPassword, Obj.eqv_str_iff]
  cases req.params.lookup "password" <;> simp

variable {conv} {password}

/-- A request that is not authorised leaves every document alone. -/
theorem putBleh_unauthorised {store : List Streamer} {name : String} {req : Request}
    (h : authorised password (editRequest req.params) = false) :
    (putBleh conv password store name req).1 = store := by
  unfold putBleh
  split
  · rfl
  · split
    · rfl
    · rename_i i _ _ stored hi
      rw [edit_unauthorised conv h]
      obtain ⟨hlt, rfl⟩ := List.getElem?_eq_some_iff.mp hi
      exact List.set_getElem_self hlt

theorem mayEdit_of_serve_ne {p : String} {store : List Streamer} {req : Request}
    (h : (serve conv (some p) store req).1 ≠ store) : req.MayEdit (some p) := by
  unfold serve at h
  split at h
  · exact absurd rfl h
  · exact absurd rfl h
  · rename_i name hd
    obtain ⟨hverb, hpath⟩ := dispatch_putBleh hd
    refine ⟨hverb, ⟨name, hpath⟩, p, rfl, ?_⟩
    rw [← authorised_iff]
    by_contra hno
    exact h (putBleh_unauthorised (by simpa using hno))
  · exact absurd rfl h

/-- A streamer without accounts. -/
def newcomer : Streamer := ⟨some "dyrus", some [], none, some "", none⟩

/-- An edit without a password parameter. -/
def openEdit : Request :=
  ⟨"PUT", ["dyrus", "bleh"], [("streamer", .hash [("team", .str "tsm")])], [], none⟩

theorem openEdit_changes : (serve conv none [newcomer] openEdit).1 ≠ [newcomer] := by
  have hserved : (serve conv none [newcomer] openEdit).1 = [{ newcomer with team := some "tsm" }] :=
    rfl
  rw [hserved]
  simp [newcomer]

/-- The store is protected exactly when a password is configured. -/
theorem only_authorised_edits_iff (conv : Conversions) (password : Option String) :
    OnlyAuthorisedEdits conv password ↔ password.isSome := by
  cases password with
  | none =>
    simp only [Option.isSome_none, Bool.false_eq_true, iff_false]
    intro h
    obtain ⟨_, _, p, hp, _⟩ := h [newcomer] [newcomer] .refl openEdit openEdit_changes
    cases hp
  | some p =>
    simp only [Option.isSome_some, iff_true]
    intro start store _ req hne
    exact mayEdit_of_serve_ne hne

/-- With no password configured a request without a password parameter edits the store. -/
theorem unset_password_lets_anyone_edit :
    ¬ ∀ conv password, OnlyAuthorisedEdits conv password := by
  intro h
  obtain ⟨_, _, p, hp, _⟩ := h noConversions none [newcomer] [newcomer] .refl openEdit
    openEdit_changes
  cases hp

end LolStreams
