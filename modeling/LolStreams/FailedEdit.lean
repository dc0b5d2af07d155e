import LolStreams.EditHandler

/-! The edits that end in an exception: at which values the clean-up raises, and what has been
written by then. -/
namespace LolStreams

open Ruby

/-! ### What goes through the clean-up -/

/-- `name.delete(" ").downcase` does not raise. -/
def CleanableName : Obj → Prop
  | .nil => False
  | .str _ => True
  | .arr xs => .str " " ∈ xs
  | .hash es => ∃ s, es.lookup " " = some (.str s)

def CleanableRegion : Obj → Prop
  | .hash names => ∀ account name, names.lookup account = some name → CleanableName name
  | .arr xs => xs = []
  | _ => False

def Cleanable (names : Hash) : Prop :=
  ∀ region value, names.lookup region = some value → CleanableRegion value

theorem cleanName_ok_iff (value : Obj) : (∃ cleaned, cleanName value = .ok cleaned) ↔
    CleanableName value := by
  cases value with
  | nil => simp [cleanName, CleanableName]
  | str s => simp [cleanName, CleanableName]
  | arr xs =>
    have hmem : (xs.any fun x => x.eqv (.str " ")) = true ↔ .str " " ∈ xs := by
      simp [List.any_eq_true, Obj.eqv_str_iff]
    by_cases h : Obj.str " " ∈ xs
    · simp [cleanName, CleanableName, hmem.mpr h, h]
    · have hany : (xs.any fun x => x.eqv (.str " ")) = false := by
        rw [← Bool.not_eq_true, hmem]
        exact h
      simp [cleanName, CleanableName, hany, h]
  | hash es =>
    cases h : es.lookup " " with
    | none => simp [cleanName, CleanableName, h]
    | some o => cases o <;> simp [cleanName, CleanableName, h]

/-- What holds of the values under some keys, in two hashes that agree on these. -/
theorem forall_lookup_congr {P : Obj → Prop} {keys : List String} {es fs : Hash}
    (h : ∀ k ∈ keys, es.lookup k = fs.lookup k) :
    (∀ k ∈ keys, ∀ v, es.lookup k = some v → P v) ↔
      ∀ k ∈ keys, ∀ v, fs.lookup k = some v → P v := by
  refine forall₂_congr fun k hk => ?_
  rw [h k hk]

theorem forall_lookup_keys {P : Obj → Prop} {es : Hash} :
    (∀ k ∈ Entries.keys es, ∀ v, es.lookup k = some v → P v) ↔
      ∀ k v, es.lookup k = some v → P v := by
  constructor
  · intro h k v hv
    exact h k (Entries.mem_keys.mpr (Option.isSome_of_eq_some hv)) v hv
  · intro h k _ v hv
    exact h k v hv

theorem lookup_erase_of_ne {k : String} {keys : List String} (hk : k ∉ keys) (es : Hash) :
    ∀ j ∈ keys, (Entries.erase k es).lookup j = es.lookup j := by
  intro j hj
  have hne : j ≠ k := fun he => hk (he ▸ hj)
  rw [Entries.lookup_erase, if_neg hne]

theorem lookup_set_of_ne {k : String} {keys : List String} (hk : k ∉ keys) (es : Hash) (v : Obj) :
    ∀ j ∈ keys, (Entries.set k v es).lookup j = es.lookup j := by
  intro j hj
  have hne : j ≠ k := fun he => hk (he ▸ hj)
  rw [Entries.lookup_set, if_neg hne]

theorem eachName_ok_iff {accounts : List String} (hn : accounts.Nodup) (live : Hash) :
    (∃ names, eachName live accounts = .ok names) ↔
      ∀ account ∈ accounts, ∀ name, live.lookup account = some name → CleanableName name := by
  induction accounts generalizing live with
  | nil => simp [eachName]
  | cons account accounts ih =>
    obtain ⟨hnew, hrest⟩ := List.nodup_cons.mp hn
    rw [List.forall_mem_cons]
    cases hl : live.lookup account with
    | none =>
      simp only [eachName, hl, ih hrest]
      simp
    | some name =>
      by_cases hempty : name.eqv (.str "") = true
      · have hname : CleanableName name := by
          rw [Obj.eqv_str_iff.mp hempty]
          trivial
        simp only [eachName, hl, hempty, if_true, ih hrest,
          forall_lookup_congr (lookup_erase_of_ne hnew live)]
        simp [hname]
      · have hclean := cleanName_ok_iff name
        cases hc : cleanName name with
        | error e =>
          rw [hc] at hclean
          have hname : ¬ CleanableName name := by simpa using hclean
          simp [eachName, hl, hempty, hc, hname]
        | ok cleaned =>
          rw [hc] at hclean
          have hname : CleanableName name := hclean.mp ⟨cleaned, rfl⟩
          simp only [eachName, hl, hempty, hc, Bool.false_eq_true, if_false, ih hrest,
            forall_lookup_congr (lookup_set_of_ne hnew live cleaned)]
          simp [hname]

theorem eachAccount_ok_iff {value : Obj} (hw : value.WellFormed) :
    (∃ names, eachAccount value = .ok names) ↔ CleanableRegion value := by
  cases hw with
  | nil => simp [eachAccount, CleanableRegion]
  | str s => simp [eachAccount, CleanableRegion]
  | @arr xs _ => cases xs <;> simp [eachAccount, CleanableRegion]
  | @hash es hn _ =>
    rw [CleanableRegion, ← forall_lookup_keys, ← eachName_ok_iff hn es, eachAccount]
    cases eachName es (Entries.keys es) <;> simp [Except.map]

theorem eachRegion_ok_iff {regions : List String} (hn : regions.Nodup) {live : Hash}
    (hw : ∀ region ∈ regions, ∀ value, live.lookup region = some value → value.WellFormed) :
    (∃ names, eachRegion live regions = .ok names) ↔
      ∀ region ∈ regions, ∀ value, live.lookup region = some value → CleanableRegion value := by
  induction regions generalizing live with
  | nil => simp [eachRegion]
  | cons region regions ih =>
    obtain ⟨hnew, hrest⟩ := List.nodup_cons.mp hn
    rw [List.forall_mem_cons] at hw ⊢
    obtain ⟨hvalue, hothers⟩ := hw
    cases hl : live.lookup region with
    | none =>
      simp only [eachRegion, hl, ih hrest hothers]
      simp
    | some value =>
      have hregion := eachAccount_ok_iff (hvalue value hl)
      cases hc : eachAccount value with
      | error e =>
        rw [hc] at hregion
        have hbad : ¬ CleanableRegion value := by simpa using hregion
        simp [eachRegion, hl, hc, hbad]
      | ok names =>
        rw [hc] at hregion
        have hgood : CleanableRegion value := hregion.mp ⟨names, rfl⟩
        have hset := lookup_set_of_ne hnew live names
        have herase := lookup_erase_of_ne hnew (Entries.set region names live)
        have hboth : ∀ r ∈ regions,
            (Entries.erase region (Entries.set region names live)).lookup r = live.lookup r :=
          fun r hr => (herase r hr).trans (hset r hr)
        simp only [eachRegion, hl, hc]
        by_cases hempty : names.eqv (.hash []) = true
        · simp only [hempty, if_true, ih hrest ((forall_lookup_congr hboth).mpr hothers),
            forall_lookup_congr hboth]
          simp [hgood]
        · simp only [hempty, Bool.false_eq_true, if_false,
            ih hrest ((forall_lookup_congr hset).mpr hothers), forall_lookup_congr hset]
          simp [hgood]

/-- The clean-up goes through exactly when every region is a hash of names that can be cleaned,
or an empty array. -/
theorem cleanUp_ok_iff {names : Hash} (hw : (Obj.hash names).WellFormed) :
    (∃ cleaned, cleanUp names = .ok cleaned) ↔ Cleanable names := by
  cases hw with
  | hash hn h =>
    have hvalues : ∀ region ∈ Entries.keys names, ∀ value,
        names.lookup region = some value → value.WellFormed :=
      fun region _ value hl => h (region, value) (Entries.mem_of_lookup hl)
    rw [cleanUp, eachRegion_ok_iff hn hvalues, forall_lookup_keys, Cleanable]

/-! ### What is assigned -/

/-- The submitted values by field. What is empty assigns nothing. -/
def submittedFieldsOf : Obj → Hash
  | .hash es => es
  | _ => []

/-- The document has the field, and the field can hold the value. -/
def FieldTakes (field : String) (value : Obj) : Prop :=
  field ∈ ["name", "gender", "team", "rank"] ∨
    field = "summoner_names" ∧ (value = .nil ∨ ∃ names, value = .hash names)

def Assignable : Obj → Prop
  | .nil => True
  | .str s => s = ""
  | .arr xs => xs = []
  | .hash es => ∀ e ∈ es, FieldTakes e.1 e.2

def namesOf : Obj → Option Hash
  | .hash names => some names
  | _ => none

/-- The submitted value of a field, or what it was. -/
def given {α : Type} (es : Hash) (field : String) (read : Obj → α) (before : α) : α :=
  match es.lookup field with
  | none => before
  | some value => read value

variable (conv : Conversions)

def assigned (es : Hash) (doc : Streamer) : Streamer where
  name := given es "name" (mongoizeString conv) doc.name
  summonerNames := given es "summoner_names" namesOf doc.summonerNames
  gender := given es "gender" (mongoizeInteger conv) doc.gender
  team := given es "team" (mongoizeString conv) doc.team
  rank := given es "rank" (mongoizeString conv) doc.rank

theorem given_cons {α : Type} (e : String × Obj) (es : Hash) (field : String) (read : Obj → α)
    (before : α) :
    given (e :: es) field read before =
      if field = e.1 then read e.2 else given es field read before := by
  rw [given, Entries.lookup_cons]
  by_cases h : field = e.1
  · simp [h]
  · simp [h, given]

theorem given_of_not_mem {α : Type} {es : Hash} {field : String} (h : field ∉ Entries.keys es)
    (read : Obj → α) (before : α) : given es field read before = before := by
  rw [given, Entries.lookup_eq_none.mpr h]

theorem assign_ok_iff (doc : Streamer) (field : String) (value : Obj) :
    (∃ d, assign conv doc field value = .ok d) ↔ FieldTakes field value := by
  unfold assign FieldTakes
  split
  · simp
  · cases value <;> simp
  · simp
  · simp
  · simp
  · grind

/-- One assignment and the rest of them, where no later one is to the same field. -/
theorem assigned_cons {doc d : Streamer} {field : String} {value : Obj} {es : Hash}
    (hnew : field ∉ Entries.keys es) (hd : assign conv doc field value = .ok d) :
    assigned conv es d = assigned conv ((field, value) :: es) doc := by
  have hsame : ∀ {α : Type} (read : Obj → α) (before : α),
      given es field read before = before := given_of_not_mem hnew
  unfold assign at hd
  split at hd
  · cases hd
    simp [assigned, given_cons, hsame]
  · split at hd
    · cases hd
      simp [assigned, given_cons, hsame, namesOf]
    · cases hd
      simp [assigned, given_cons, hsame, namesOf]
    · cases hd
  · cases hd
    simp [assigned, given_cons, hsame]
  · cases hd
    simp [assigned, given_cons, hsame]
  · cases hd
    simp [assigned, given_cons, hsame]
  · cases hd

theorem assignEach_eq {es : Hash} (hn : (Entries.keys es).Nodup)
    (h : ∀ e ∈ es, FieldTakes e.1 e.2) (doc : Streamer) :
    assignEach conv doc es = .ok (assigned conv es doc) := by
  induction es generalizing doc with
  | nil => rfl
  | cons e es ih =>
    obtain ⟨hnew, hrest⟩ := List.nodup_cons.mp hn
    obtain ⟨d, hd⟩ := (assign_ok_iff conv doc e.1 e.2).mpr (h e List.mem_cons_self)
    rw [assignEach, hd, ← assigned_cons conv hnew hd]
    exact ih hrest (fun f hf => h f (List.mem_cons_of_mem _ hf)) d

theorem fieldTakes_of_assignEach {es : Hash} {doc d : Streamer}
    (h : assignEach conv doc es = .ok d) : ∀ e ∈ es, FieldTakes e.1 e.2 := by
  induction es generalizing doc with
  | nil => simp
  | cons e es ih =>
    rw [assignEach] at h
    cases ha : assign conv doc e.1 e.2 with
    | error x => simp [ha] at h
    | ok d' =>
      rw [ha] at h
      exact List.forall_mem_cons.mpr ⟨(assign_ok_iff conv doc e.1 e.2).mp ⟨d', ha⟩, ih h⟩

theorem assignAttributes_eq {value : Obj} (hw : value.WellFormed) (h : Assignable value)
    (doc : Streamer) :
    assignAttributes conv doc value = .ok (assigned conv (submittedFieldsOf value) doc) := by
  cases hw with
  | nil => rfl
  | str s =>
    obtain rfl : s = "" := h
    rfl
  | @arr xs _ =>
    obtain rfl : xs = [] := h
    rfl
  | @hash es hn _ => exact assignEach_eq conv hn h doc

theorem assignable_of_ok {value : Obj} {doc d : Streamer}
    (h : assignAttributes conv doc value = .ok d) : Assignable value := by
  cases value with
  | nil => trivial
  | str s =>
    by_contra hs
    simp [assignAttributes, show s ≠ "" from hs] at h
  | arr xs =>
    cases xs with
    | nil => rfl
    | cons x xs => simp [assignAttributes] at h
  | hash es => exact fieldTakes_of_assignEach conv h

/-! ### What a failed edit leaves -/

/-- An edit that ends in an exception leaves the stored document as it was. -/
def FailsClean (password : Option String) (req : EditRequest) (stored : Streamer) : Prop :=
  ∀ e, (edit conv password req stored).2 = .finished (some e) →
    (edit conv password req stored).1 = stored

/-- The stored document holds the value in the field already. -/
def AlreadyStored (stored : Streamer) (field : String) (value : Obj) : Prop :=
  match field with
  | "name" => mongoizeString conv value = stored.name
  | "summoner_names" => sameNames stored.summonerNames (namesOf value) = true
  | "gender" => mongoizeInteger conv value = stored.gender
  | "team" => mongoizeString conv value = stored.team
  | "rank" => mongoizeString conv value = stored.rank
  | _ => True

def NothingNew (stored : Streamer) (es : Hash) : Prop :=
  ∀ field value, es.lookup field = some value → AlreadyStored conv stored field value

/-- The names that the clean-up is run on. -/
def namesToClean (req : EditRequest) (stored : Streamer) : Option Hash :=
  given (submittedFieldsOf req.streamer) "summoner_names" namesOf stored.summonerNames

theorem given_eq_iff {α : Type} {es : Hash} {field : String} {read : Obj → α} {before : α} :
    given es field read before = before ↔
      ∀ value, es.lookup field = some value → read value = before := by
  unfold given
  cases es.lookup field <;> simp

theorem ite_eq_left_iff_eq {α : Type} (a b : α) [Decidable (a = b)] :
    (if a = b then a else b) = a ↔ b = a := by
  by_cases h : a = b <;> simp [h, eq_comm]

theorem sameNames_self {names : Option Hash}
    (hw : ∀ es, names = some es → (Obj.hash es).WellFormed) : sameNames names names = true := by
  cases names with
  | none => rfl
  | some es => exact Obj.eqv_refl (hw es rfl)

/-- The field of the names keeps its value when it is given none, or the same again. -/
theorem names_kept_iff {es : Hash} {before : Option Hash}
    (hw : ∀ names, before = some names → (Obj.hash names).WellFormed) :
    (if sameNames before (given es "summoner_names" namesOf before) = true then before
      else given es "summoner_names" namesOf before) = before ↔
      ∀ value, es.lookup "summoner_names" = some value →
        sameNames before (namesOf value) = true := by
  have hself := sameNames_self hw
  cases hl : es.lookup "summoner_names" with
  | none => simp [given, hl]
  | some value =>
    simp only [given, hl, Option.some.injEq, forall_eq']
    constructor
    · intro h
      by_cases hs : sameNames before (namesOf value) = true
      · exact hs
      · rw [if_neg hs] at h
        rw [h]
        exact hself
    · intro h
      rw [if_pos h]

theorem Streamer.eq_iff (x y : Streamer) :
    x = y ↔ x.name = y.name ∧ x.summonerNames = y.summonerNames ∧ x.gender = y.gender ∧
      x.team = y.team ∧ x.rank = y.rank := by
  rcases x with ⟨name, names, gender, team, rank⟩
  rcases y with ⟨name', names', gender', team', rank'⟩
  simp only [Streamer.mk.injEq]

theorem save_assigned_iff {stored : Streamer} (es : Hash)
    (hw : ∀ names, stored.summonerNames = some names → (Obj.hash names).WellFormed) :
    save stored (assigned conv es stored) stored = stored ↔ NothingNew conv stored es := by
  have hfields : save stored (assigned conv es stored) stored = stored ↔
      given es "name" (mongoizeString conv) stored.name = stored.name ∧
      (∀ value, es.lookup "summoner_names" = some value →
        sameNames stored.summonerNames (namesOf value) = true) ∧
      given es "gender" (mongoizeInteger conv) stored.gender = stored.gender ∧
      given es "team" (mongoizeString conv) stored.team = stored.team ∧
      given es "rank" (mongoizeString conv) stored.rank = stored.rank := by
    rw [← names_kept_iff hw, Streamer.eq_iff]
    simp only [save, ite_eq_left_iff_eq]
    rfl
  rw [hfields]
  simp only [given_eq_iff]
  constructor
  · rintro ⟨hname, hnames, hgender, hteam, hrank⟩ field value hl
    unfold AlreadyStored
    split
    · exact hname value hl
    · exact hnames value hl
    · exact hgender value hl
    · exact hteam value hl
    · exact hrank value hl
    · trivial
  · intro h
    exact ⟨h "name", h "summoner_names", h "gender", h "team", h "rank"⟩

theorem wellFormed_of_submitted {o value : Obj} (hw : o.WellFormed) {field : String}
    (hl : (submittedFieldsOf o).lookup field = some value) : value.WellFormed := by
  cases hw with
  | @hash es _ hes => exact hes _ (Entries.mem_of_lookup hl)
  | _ => simp [submittedFieldsOf] at hl

theorem wellFormed_namesToClean {req : EditRequest} {stored : Streamer}
    (hreq : req.streamer.WellFormed)
    (hstored : ∀ names, stored.summonerNames = some names → (Obj.hash names).WellFormed)
    {names : Hash} (h : namesToClean req stored = some names) : (Obj.hash names).WellFormed := by
  unfold namesToClean given at h
  cases hl : (submittedFieldsOf req.streamer).lookup "summoner_names" with
  | none =>
    rw [hl] at h
    exact hstored names h
  | some value =>
    rw [hl] at h
    have hvalue := wellFormed_of_submitted hreq hl
    cases value with
    | hash es =>
      cases h
      exact hvalue
    | _ => cases h

section
variable {password : Option String} {req : EditRequest} {stored : Streamer}

/-- An edit that cannot be assigned has not written anything. -/
theorem edit_unassignable (hauth : authorised password req = true)
    (h : ¬ Assignable req.streamer) : (edit conv password req stored).1 = stored := by
  cases ha : assignAttributes conv stored req.streamer with
  | ok doc => exact absurd (assignable_of_ok conv ha) h
  | error e => simp [edit, advance, hauth, ha]

/-- After the first write, the outcome of the clean-up decides. -/
theorem edit_assigned (hauth : authorised password req = true) {doc : Streamer}
    (hdoc : assignAttributes conv stored req.streamer = .ok doc) :
    edit conv password req stored =
      advance conv password req (save stored doc stored) (.updated doc) := by
  simp [edit, advance, hauth, hdoc]

/-- A failed edit changes nothing exactly when it fails before the first write, or that write
changes nothing. -/
theorem fails_clean_iff (hreq : req.streamer.WellFormed)
    (hstored : ∀ names, stored.summonerNames = some names → (Obj.hash names).WellFormed) :
    FailsClean conv password req stored ↔
      (authorised password req = true → Assignable req.streamer →
        NothingNew conv stored (submittedFieldsOf req.streamer) ∨
          ∃ names, namesToClean req stored = some names ∧ Cleanable names) := by
  by_cases hauth : authorised password req = true
  · by_cases hassign : Assignable req.streamer
    · have hdoc := assignAttributes_eq conv hreq hassign stored
      have hsave := save_assigned_iff conv (submittedFieldsOf req.streamer) hstored
      simp only [FailsClean, edit_assigned conv hauth hdoc, advance, hauth, hassign,
        forall_const]
      have hnames : (assigned conv (submittedFieldsOf req.streamer) stored).summonerNames =
        namesToClean req stored := rfl
      rw [hnames, ← hsave]
      cases hc : namesToClean req stored with
      | none => simp
      | some names =>
        have hclean := cleanUp_ok_iff (wellFormed_namesToClean hreq hstored hc)
        cases hok : cleanUp names with
        | error e =>
          rw [hok] at hclean
          have hbad : ¬ Cleanable names := by simpa using hclean
          simp [hok, hbad]
        | ok cleaned =>
          rw [hok] at hclean
          have hgood : Cleanable names := hclean.mp ⟨cleaned, rfl⟩
          simp [hok, hgood]
    · simp [FailsClean, hassign, edit_unassignable conv hauth hassign]
  · have hno := edit_unauthorised conv (by simpa using hauth) stored
    simp [FailsClean, hauth, hno]

end

/-! ### A region that is given a string -/

def dyrusNames : Names :=
  ⟨[("NA", ⟨[("Main", "dyrus")], List.nodup_singleton _⟩)], List.nodup_singleton _⟩

def dyrusDocument : Streamer where
  name := some "dyrus"
  summonerNames := some dyrusNames.toHash
  gender := none
  team := none
  rank := none

theorem wellFormed_dyrusDocument : ∀ names, dyrusDocument.summonerNames = some names →
    (Obj.hash names).WellFormed := by
  rintro _ ⟨⟩
  exact dyrusNames.wellFormed

/-- A request that submits the given names, and nothing else. -/
def namesRequest (names : Hash) : EditRequest where
  password := .str "secret"
  streamer := .hash [("summoner_names", .hash names)]

theorem wellFormed_namesRequest {names : Hash} (h : (Obj.hash names).WellFormed) :
    (namesRequest names).streamer.WellFormed := .singleton h _

def stringNames : Hash := [("NA", .str "imaqtpie")]

theorem wellFormed_stringNames : (Obj.hash stringNames).WellFormed := .singleton (.str _) _

/-- A string in the place of the accounts is written, and then has no `each`. -/
theorem edit_stringNames (stored : Streamer) :
    edit noConversions (some "secret") (namesRequest stringNames) stored =
      (save stored { stored with summonerNames := some stringNames } stored,
        .finished (some .noMethodError)) := by
  have hauth : authorised (some "secret") (namesRequest stringNames) = true := by
    simp [authorised, namesRequest, envPassword]
  have hdoc : assignAttributes noConversions stored (namesRequest stringNames).streamer =
      .ok { stored with summonerNames := some stringNames } := rfl
  rw [edit_assigned noConversions hauth hdoc]
  simp [advance, stringNames, cleanUp, eachRegion, eachAccount]

/-- The document that such an edit leaves. -/
def stringDocument : Streamer := { dyrusDocument with summonerNames := some stringNames }

/-- The same edit once more, which raises again and changes nothing. -/
theorem fails_clean_dyrus :
    (edit noConversions (some "secret") (namesRequest stringNames) stringDocument).2 =
        .finished (some .noMethodError) ∧
      FailsClean noConversions (some "secret") (namesRequest stringNames) stringDocument := by
  have hstored : ∀ names, stringDocument.summonerNames = some names →
      (Obj.hash names).WellFormed := by
    rintro _ ⟨⟩
    exact wellFormed_stringNames
  refine ⟨congrArg Prod.snd (edit_stringNames stringDocument), ?_⟩
  refine (fails_clean_iff noConversions (wellFormed_namesRequest wellFormed_stringNames)
    hstored).mpr ?_
  intro _ _
  left
  intro field value hl
  obtain ⟨rfl, rfl⟩ : field = "summoner_names" ∧ value = .hash stringNames := by
    simpa [namesRequest, submittedFieldsOf, Entries.lookup_cons, eq_comm] using hl
  exact sameNames_self hstored

theorem string_region_half_written :
    ¬ ∀ (conv : Conversions) (password : Option String) (req : EditRequest) (stored : Streamer),
      req.streamer.WellFormed →
      (∀ names, stored.summonerNames = some names → (Obj.hash names).WellFormed) →
      authorised password req = true → FailsClean conv password req stored := by
  intro h
  have hauth : authorised (some "secret") (namesRequest stringNames) = true := by
    simp [authorised, namesRequest, envPassword]
  have hnew : sameNames dyrusDocument.summonerNames (some stringNames) = false := rfl
  have hwritten : (save dyrusDocument { dyrusDocument with summonerNames := some stringNames }
      dyrusDocument).summonerNames = some stringNames := by
    simp only [save, hnew, Bool.false_eq_true, if_false]
  have hedit := edit_stringNames dyrusDocument
  have hsame := h noConversions (some "secret") (namesRequest stringNames) dyrusDocument
    (wellFormed_namesRequest wellFormed_stringNames) wellFormed_dyrusDocument hauth
    .noMethodError (congrArg Prod.snd hedit)
  rw [hedit] at hsame
  have hnames := hwritten.symm.trans (congrArg Streamer.summonerNames hsame)
  simp [stringNames, dyrusDocument, dyrusNames, Names.toHash, Entries.mapVal] at hnames

end LolStreams
