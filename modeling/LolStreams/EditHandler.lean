import LolStreams.Streamer

/-! `GET` and `PUT /:name/bleh`: the document that the edit page shows; the clean-up loops,
which delete and overwrite entries of the hashes they run over; and the handler of the edit as
the three database steps it takes. -/
namespace LolStreams

open Ruby

/-! ### The page to edit -/

def preparedRegions : List String :=
  ["NA", "EUW", "EUNE", "TR", "RU", "OCE", "LAS", "LAN", "BR", "PBE"]

/-- `@streamer.summoner_names[region] ||= ""` -/
def prepareRegion (names : Hash) (region : String) : Hash :=
  match names.lookup region with
  | none => Entries.set region (.str "") names
  | some .nil => Entries.set region (.str "") names
  | some _ => names

/-- What `GET /:name/bleh` makes of the loaded document, in memory only. -/
def prepare (loaded : Streamer) : Streamer :=
  { loaded with
    summonerNames := some (preparedRegions.foldl prepareRegion (loaded.summonerNames.getD [])) }

/-! ### Cleaning up -/

/-- `name.delete(" ").downcase`. On an array `delete` removes the elements equal to `" "` and
returns such an element, on a hash it returns the value under that key. -/
def cleanName : Obj → Except Exn Obj
  | .nil => .error .noMethodError
  | .str s => .ok (.str (downcase (deleteSpaces s)))
  | .arr xs => if xs.any fun x => x.eqv (.str " ") then .ok (.str " ") else .error .noMethodError
  | .hash es =>
    match es.lookup " " with
    | some (.str s) => .ok (.str (downcase s))
    | _ => .error .noMethodError

/-- The loop over the accounts still to be visited, in the hash as it is by then. It deletes
and overwrites under the key at hand only, which Ruby allows during `each`. -/
def eachName (live : Hash) : List String → Except Exn Hash
  | [] => .ok live
  | account :: accounts =>
    match live.lookup account with
    | none => eachName live accounts
    | some name =>
      if name.eqv (.str "") then eachName (Entries.erase account live) accounts
      else
        match cleanName name with
        | .error e => .error e
        | .ok cleaned => eachName (Entries.set account cleaned live) accounts

/-- `names.each` on the value of a region. An element of an array leaves `name` nil, which
cannot be cleaned; no parsed request has an array directly inside an array. -/
def eachAccount : Obj → Except Exn Obj
  | .hash names => (eachName names (Entries.keys names)).map .hash
  | .arr xs => if xs.isEmpty then .ok (.arr xs) else .error .noMethodError
  | _ => .error .noMethodError

/-- The loop over the regions. `names` is the object stored under the region, so the inner
loop changes that. -/
def eachRegion (live : Hash) : List String → Except Exn Hash
  | [] => .ok live
  | region :: regions =>
    match live.lookup region with
    | none => eachRegion live regions
    | some names =>
      match eachAccount names with
      | .error e => .error e
      | .ok names =>
        let live := Entries.set region names live
        if names.eqv (.hash []) then eachRegion (Entries.erase region live) regions
        else eachRegion live regions

def cleanUp (names : Hash) : Except Exn Hash := eachRegion names (Entries.keys names)

/-! ### The handler -/

/-- `params[:password]` and `params[:streamer]`. -/
structure EditRequest where
  password : Obj
  streamer : Obj

/-- `ENV['PASSWORD']` -/
def envPassword (password : Option String) : Obj :=
  match password with
  | none => .nil
  | some p => .str p

/-- `params[:password] == ENV['PASSWORD']` -/
def authorised (password : Option String) (req : EditRequest) : Bool :=
  req.password.eqv (envPassword password)

/-- The two parameters of the handler, besides the name in the path. -/
def editRequest (params : Hash) : EditRequest where
  password := (params.lookup "password").getD .nil
  streamer := (params.lookup "streamer").getD .nil

inductive Progress
  | waiting
  | found (loaded : Streamer)
  | updated (saved : Streamer)
  | finished (raised : Option Exn)

variable (conv : Conversions)

/-- The next database step: `find_by`, then the write of `update_attributes`, then the write
of `save`, each with what the handler computes on the way to it. -/
def advance (password : Option String) (req : EditRequest) (stored : Streamer) :
    Progress → Streamer × Progress
  | .waiting => (stored, .found stored)
  | .found loaded =>
    if authorised password req then
      match assignAttributes conv loaded req.streamer with
      | .error e => (stored, .finished (some e))
      | .ok doc => (save loaded doc stored, .updated doc)
    else (stored, .finished none)
  | .updated saved =>
    match saved.summonerNames with
    | none => (stored, .finished (some .noMethodError))
    | some names =>
      match cleanUp names with
      | .error e => (stored, .finished (some e))
      | .ok cleaned =>
        (save saved { saved with summonerNames := some cleaned } stored, .finished none)
  | .finished raised => (stored, .finished raised)

/-- A request that runs without interference. -/
def edit (password : Option String) (req : EditRequest) (stored : Streamer) :
    Streamer × Progress :=
  let (stored, progress) := advance conv password req stored .waiting
  let (stored, progress) := advance conv password req stored progress
  advance conv password req stored progress

/-- Without the password the document stays as it is. -/
theorem edit_unauthorised {password : Option String} {req : EditRequest}
    (h : authorised password req = false) (stored : Streamer) :
    edit conv password req stored = (stored, .finished none) := by
  simp [edit, advance, h]

/-! ### What the clean-up computes -/

/-- Names by account by region. -/
abbrev Names := OrderedMap String (OrderedMap String String)

def accountsHash (names : OrderedMap String String) : Hash := Entries.mapVal .str names.entries

def Names.toHash (m : Names) : Hash :=
  Entries.mapVal (fun names => .hash (accountsHash names)) m.entries

/-- A submitted name as it is stored, an empty one not at all. -/
def cleanedName (name : String) : Option String :=
  if name = "" then none else some (downcase (deleteSpaces name))

def cleanedAccounts (names : OrderedMap String String) : Option (OrderedMap String String) :=
  let cleaned := names.filterMap cleanedName
  if cleaned.entries = [] then none else some cleaned

def Names.cleaned (m : Names) : Names := m.filterMap cleanedAccounts

theorem eachName_accounts (done : Hash) (todo : List (String × String))
    (hn : (Entries.keys done ++ Entries.keys todo).Nodup) :
    eachName (done ++ Entries.mapVal .str todo) (Entries.keys todo) =
      .ok (done ++ Entries.mapVal .str (Entries.filterMapVal cleanedName todo)) := by
  induction todo generalizing done with
  | nil => rfl
  | cons e rest ih =>
    rcases e with ⟨account, name⟩
    obtain ⟨hnew, hothers⟩ := List.nodup_cons.mp (List.nodup_middle.mp hn)
    rw [List.mem_append, not_or] at hnew
    obtain ⟨hx, hr⟩ := hnew
    have hlive : done ++ Entries.mapVal Obj.str ((account, name) :: rest) =
        done ++ (account, .str name) :: Entries.mapVal .str rest := rfl
    have hy : account ∉ Entries.keys (Entries.mapVal Obj.str rest) := by
      rwa [Entries.keys_mapVal]
    rw [Entries.keys_cons, hlive, eachName, Entries.lookup_append_cons hx]
    by_cases he : name = ""
    · simp only [Obj.eqv_str, he, decide_true, if_true, Entries.erase_append_cons hx hy,
        ih done hothers]
      rfl
    · have hnodup : (Entries.keys (done ++ [(account, Obj.str (downcase (deleteSpaces name)))]) ++
          Entries.keys rest).Nodup := by
        rw [Entries.keys_append, List.append_assoc]
        exact hn
      have hi := ih _ hnodup
      rw [List.append_assoc, List.append_assoc] at hi
      simp only [Obj.eqv_str, he, decide_false, Bool.false_eq_true, if_false, cleanName,
        Entries.set_append_cons hx]
      simpa [Entries.filterMapVal, cleanedName, he, Entries.mapVal] using hi

theorem eachAccount_accounts (names : OrderedMap String String) :
    eachAccount (.hash (accountsHash names)) =
      .ok (.hash (accountsHash (names.filterMap cleanedName))) := by
  have h := eachName_accounts [] names.entries (by simpa using names.nodup)
  simp only [eachAccount, accountsHash, Entries.keys_mapVal]
  simp only [List.nil_append] at h
  rw [h]
  rfl

theorem accountsHash_isEmpty (names : OrderedMap String String) :
    (accountsHash names).isEmpty = decide (names.entries = []) := by
  cases h : names.entries <;> simp [accountsHash, Entries.mapVal, h]

theorem eachRegion_names (done : Hash) (todo : List (String × OrderedMap String String))
    (hn : (Entries.keys done ++ Entries.keys todo).Nodup) :
    eachRegion (done ++ Entries.mapVal (fun names => .hash (accountsHash names)) todo)
        (Entries.keys todo) =
      .ok (done ++ Entries.mapVal (fun names => .hash (accountsHash names))
        (Entries.filterMapVal cleanedAccounts todo)) := by
  induction todo generalizing done with
  | nil => rfl
  | cons e rest ih =>
    rcases e with ⟨region, names⟩
    obtain ⟨hnew, hothers⟩ := List.nodup_cons.mp (List.nodup_middle.mp hn)
    rw [List.mem_append, not_or] at hnew
    obtain ⟨hx, hr⟩ := hnew
    have hlive : done ++ Entries.mapVal (fun names => Obj.hash (accountsHash names))
          ((region, names) :: rest) =
        done ++ (region, .hash (accountsHash names)) ::
          Entries.mapVal (fun names => .hash (accountsHash names)) rest := rfl
    have hy : region ∉ Entries.keys
        (Entries.mapVal (fun names => Obj.hash (accountsHash names)) rest) := by
      rwa [Entries.keys_mapVal]
    rw [Entries.keys_cons, hlive, eachRegion, Entries.lookup_append_cons hx]
    simp only [eachAccount_accounts, Entries.set_append_cons hx, Obj.eqv_empty,
      accountsHash_isEmpty]
    by_cases he : (names.filterMap cleanedName).entries = []
    · have hnone : cleanedAccounts names = none := if_pos he
      simp only [he, decide_true, if_true, Entries.erase_append_cons hx hy, ih done hothers]
      simp [Entries.filterMapVal, hnone]
    · have hnodup : (Entries.keys (done ++
          [(region, Obj.hash (accountsHash (names.filterMap cleanedName)))]) ++
            Entries.keys rest).Nodup := by
        rw [Entries.keys_append, List.append_assoc]
        exact hn
      have hi := ih _ hnodup
      have hsome : cleanedAccounts names = some (names.filterMap cleanedName) := if_neg he
      rw [List.append_assoc, List.append_assoc] at hi
      simp only [he, decide_false, Bool.false_eq_true, if_false]
      simpa [Entries.filterMapVal, hsome, Entries.mapVal] using hi

/-- The loops in place compute the map of the cleaned names. -/
theorem cleanUp_names (m : Names) : cleanUp m.toHash = .ok m.cleaned.toHash := by
  have h := eachRegion_names [] m.entries (by simpa using m.nodup)
  simp only [List.nil_append] at h
  rw [cleanUp, Names.toHash, Entries.keys_mapVal]
  exact h

/-! ### Names as stored values -/

theorem cleanedAccounts_eq_none {names : OrderedMap String String} :
    cleanedAccounts names = none ↔ ∀ account, (names.lookup account).bind cleanedName = none := by
  simp only [cleanedAccounts, ite_eq_left_iff, reduceCtorEq, imp_false, not_not,
    OrderedMap.entries_eq_nil, OrderedMap.lookup_filterMap]

theorem lookup_of_cleanedAccounts {names cleaned : OrderedMap String String}
    (h : cleanedAccounts names = some cleaned) (account : String) :
    cleaned.lookup account = (names.lookup account).bind cleanedName := by
  simp only [cleanedAccounts] at h
  split_ifs at h
  cases h
  exact OrderedMap.lookup_filterMap cleanedName names account

theorem lookup_accountsHash (names : OrderedMap String String) (account : String) :
    (accountsHash names).lookup account = (names.lookup account).map .str :=
  Entries.lookup_mapVal _ _ _

theorem nodup_accountsHash (names : OrderedMap String String) :
    (Entries.keys (accountsHash names)).Nodup := by
  rw [accountsHash, Entries.keys_mapVal]
  exact names.nodup

theorem Names.lookup_toHash (m : Names) (region : String) :
    m.toHash.lookup region = (m.lookup region).map fun names => .hash (accountsHash names) :=
  Entries.lookup_mapVal _ _ _

theorem Names.nodup_toHash (m : Names) : (Entries.keys m.toHash).Nodup := by
  rw [Names.toHash, Entries.keys_mapVal]
  exact m.nodup

theorem Names.wellFormed (m : Names) : (Obj.hash m.toHash).WellFormed := by
  refine .hash m.nodup_toHash ?_
  intro e he
  obtain ⟨⟨region, names⟩, _, rfl⟩ := List.mem_map.mp he
  refine .hash (nodup_accountsHash names) ?_
  intro f hf
  obtain ⟨⟨account, name⟩, _, rfl⟩ := List.mem_map.mp hf
  exact .str name

theorem eqv_accountsHash (x y : OrderedMap String String) :
    (Obj.hash (accountsHash x)).eqv (.hash (accountsHash y)) = true ↔ x.Same y := by
  rw [Obj.eqv_hash (nodup_accountsHash x) (nodup_accountsHash y)]
  refine forall_congr' fun account => ?_
  rw [lookup_accountsHash, lookup_accountsHash]
  cases x.lookup account <;> cases y.lookup account <;> simp

/-- Two stored maps of names are equal when they hold the same names. -/
theorem sameNames_toHash (m n : Names) :
    sameNames (some m.toHash) (some n.toHash) = true ↔
      ∀ region, (m.lookup region = none ∧ n.lookup region = none) ∨
        ∃ x y, m.lookup region = some x ∧ n.lookup region = some y ∧ x.Same y := by
  rw [sameNames, Obj.eqv_hash m.nodup_toHash n.nodup_toHash]
  refine forall_congr' fun region => ?_
  rw [Names.lookup_toHash, Names.lookup_toHash]
  cases m.lookup region <;> cases n.lookup region <;> simp [eqv_accountsHash]

theorem sameNames_refl (m : Names) : sameNames (some m.toHash) (some m.toHash) = true :=
  Obj.eqv_refl m.wellFormed

/-! ### A submitted form -/

/-- What the edit form submits. -/
structure EditForm where
  team : String
  gender : String
  names : Names

/-- The submitted form with the password that the server compares with. -/
def EditForm.request (password : Option String) (form : EditForm) : EditRequest where
  password := envPassword password
  streamer := .hash [("team", .str form.team), ("gender", .str form.gender),
    ("summoner_names", .hash form.names.toHash)]

/-- Saving leaves the names of the document, up to the order of their entries. -/
theorem sameNames_save {saved doc stored : Streamer}
    (hs : sameNames saved.summonerNames doc.summonerNames = true →
      sameNames stored.summonerNames doc.summonerNames = true)
    (hd : sameNames doc.summonerNames doc.summonerNames = true) :
    sameNames (save saved doc stored).summonerNames doc.summonerNames = true := by
  unfold save
  by_cases h : sameNames saved.summonerNames doc.summonerNames = true
  · simp only [h, if_true]
    exact hs h
  · simp only [h, Bool.false_eq_true, if_false]
    exact hd

section
variable (password : Option String) (form : EditForm)

theorem authorised_request : authorised password (form.request password) = true := by
  cases password with
  | none => rfl
  | some p => simp [authorised, EditForm.request, envPassword]

/-- The document with the submitted values assigned. -/
def EditForm.apply (doc : Streamer) : Streamer :=
  { doc with
    team := some form.team
    gender := mongoizeInteger conv (.str form.gender)
    summonerNames := some form.names.toHash }

theorem advance_found (stored loaded : Streamer) :
    advance conv password (form.request password) stored (.found loaded) =
      (save loaded (form.apply conv loaded) stored, .updated (form.apply conv loaded)) := by
  simp only [advance, authorised_request, if_true]
  simp [EditForm.request, assignAttributes, assignEach, assign, mongoizeString, EditForm.apply]

theorem advance_updated (stored saved : Streamer)
    (h : saved.summonerNames = some form.names.toHash) :
    advance conv password (form.request password) stored (.updated saved) =
      (save saved { saved with summonerNames := some form.names.cleaned.toHash } stored,
        .finished none) := by
  simp [advance, h, cleanUp_names]

theorem edit_request (stored : Streamer) :
    edit conv password (form.request password) stored =
      (save (form.apply conv stored)
        { form.apply conv stored with summonerNames := some form.names.cleaned.toHash }
        (save stored (form.apply conv stored) stored), .finished none) := by
  have hn : (form.apply conv stored).summonerNames = some form.names.toHash := rfl
  have hwait : advance conv password (form.request password) stored .waiting =
      (stored, .found stored) := rfl
  simp only [edit, hwait, advance_found, advance_updated conv password form _ _ hn]

theorem sameNames_edit (stored : Streamer) :
    sameNames (edit conv password (form.request password) stored).1.summonerNames
      (some form.names.cleaned.toHash) = true := by
  have hfirst : sameNames (save stored (form.apply conv stored) stored).summonerNames
      (some form.names.toHash) = true := sameNames_save id (sameNames_refl form.names)
  rw [edit_request]
  exact sameNames_save (sameNames_trans hfirst) (sameNames_refl form.names.cleaned)

end

end LolStreams
