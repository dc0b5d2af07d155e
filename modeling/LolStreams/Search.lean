import LolStreams.FilterChain
import LolStreams.ShownList

/-! The search box, and the whole chain of filters that the page repeats its list through. The
box filters by any text in a record, at any depth, and knows nothing of the attributes that the
other filters read. Where one of these cannot be read the chain throws, and the page goes on
showing the list that it has. -/
namespace LolStreams

/-- What `JSON.parse` makes. A number carries the text that it prints as. -/
inductive JsonValue
  | null
  | bool (b : Bool)
  | num (text : String)
  | str (s : String)
  | arr (xs : List JsonValue)
  | obj (fields : List (String × JsonValue))
  deriving Repr

theorem JsonValue.induction {P : JsonValue → Prop} (null : P null) (bool : ∀ b, P (bool b))
    (num : ∀ t, P (num t)) (str : ∀ s, P (str s)) (arr : ∀ xs, (∀ x ∈ xs, P x) → P (arr xs))
    (obj : ∀ fields, (∀ k v, (k, v) ∈ fields → P v) → P (obj fields)) (v : JsonValue) : P v := by
  refine @JsonValue.rec P (fun xs => ∀ x ∈ xs, P x) (fun es => ∀ k v, (k, v) ∈ es → P v)
    (fun e => P e.2) null bool num str arr obj ?_ ?_ ?_ ?_ ?_ v
  · simp
  · intro x xs hx hxs y hy
    rcases List.mem_cons.mp hy with rfl | hy
    · exact hx
    · exact hxs y hy
  · simp
  · intro e es he hes k v hm
    rcases List.mem_cons.mp hm with hm | hm
    · rw [← hm] at he
      exact he
    · exact hes k v hm
  · exact fun _ _ h => h

/-! ### Records -/

namespace JsonValue

def text : JsonValue → Option String
  | str s => some s
  | _ => none

def whole (cs : List Char) : Option ℕ :=
  if cs ≠ [] ∧ cs.all Char.isDigit then some (Nat.ofDigitChars 10 cs 0) else none

def int : JsonValue → Option ℤ
  | num text =>
    match text.toList with
    | '-' :: cs => (whole cs).map fun n => -(n : ℤ)
    | cs => (whole cs).map fun n => (n : ℤ)
  | _ => none

end JsonValue

/-- A field of a parsed object, `none` where it holds a value of another type. -/
def JsField.ofJson {α : Type} (read : JsonValue → Option α) : Option JsonValue → Option (JsField α)
  | none => some .undefined
  | some .null => some .null
  | some v => (read v).map .val

def Channel.ofJson : JsonValue → Option Channel
  | .obj fields => do
    let name ← (fields.lookup "name").bind JsonValue.text
    let broadcasterLanguage ← JsField.ofJson JsonValue.text (fields.lookup "broadcaster_language")
    some ⟨name, broadcasterLanguage⟩
  | _ => none

def StreamerInfo.ofJson : JsonValue → Option StreamerInfo
  | .obj fields => do
    let team ← JsField.ofJson JsonValue.text (fields.lookup "team")
    let gender ← JsField.ofJson JsonValue.int (fields.lookup "gender")
    some ⟨team, gender⟩
  | _ => none

def Stream.ofJson : JsonValue → Option Stream
  | .obj fields => do
    let champion ← JsField.ofJson JsonValue.text (fields.lookup "champion")
    let championname ← JsField.ofJson JsonValue.text (fields.lookup "championname")
    let rank ← JsField.ofJson JsonValue.text (fields.lookup "rank")
    let region ← JsField.ofJson JsonValue.text (fields.lookup "region")
    let status ← JsField.ofJson JsonValue.text (fields.lookup "status")
    let channel ← JsField.ofJson Channel.ofJson (fields.lookup "channel")
    let streamer ← JsField.ofJson StreamerInfo.ofJson (fields.lookup "streamer")
    some ⟨champion, championname, rank, region, status, channel, streamer⟩
  | _ => none

/-- A record of the list, with the attributes that the filters read from it. -/
structure Record where
  json : JsonValue
  stream : Stream
  reads : Stream.ofJson json = some stream

/-! ### The search filter -/

section

variable (toLowerCase : String → String)

/-- `(''+obj).toLowerCase().indexOf(text) > -1` for the lowered text. -/
def comparator (obj text : String) : Bool :=
  decide ((toLowerCase text).toList <:+: (toLowerCase obj).toList)

mutual

/-- `search(obj, text)` for a text that does not begin with an exclamation mark. Names that
begin with a dollar sign are passed over. -/
def searchIn (text : String) : JsonValue → Bool
  | .null => false
  | .bool b => comparator toLowerCase (toString b) text
  | .num t => comparator toLowerCase t text
  | .str s => comparator toLowerCase s text
  | .arr xs => searchElements text xs
  | .obj fields => searchFields text fields

def searchElements (text : String) : List JsonValue → Bool
  | [] => false
  | x :: xs => searchIn text x || searchElements text xs

def searchFields (text : String) : List (String × JsonValue) → Bool
  | [] => false
  | (key, value) :: fields =>
    (key.toList.head? ≠ some '$' && searchIn text value) || searchFields text fields

end

/-- `search(obj, text)`: an exclamation mark in front turns the answer over. -/
def search (obj : JsonValue) : List Char → Bool
  | '!' :: text => !search obj text
  | text => searchIn toLowerCase (String.ofList text) obj

/-- `filter: search`, which lets everything through while nothing has been typed. -/
def filterSearch (expression : Option String) (record : Record) : Bool :=
  match expression with
  | none => true
  | some text => search toLowerCase record.json text.toList

end

/-- A text in the value that no name with a dollar sign leads to. -/
inductive Leaf : JsonValue → String → Prop
  | bool (b : Bool) : Leaf (.bool b) (toString b)
  | num (t : String) : Leaf (.num t) t
  | str (s : String) : Leaf (.str s) s
  | element {xs : List JsonValue} {x : JsonValue} {s : String} (hx : x ∈ xs) (h : Leaf x s) :
      Leaf (.arr xs) s
  | field {fields : List (String × JsonValue)} {key : String} {value : JsonValue} {s : String}
      (hm : (key, value) ∈ fields) (hk : key.toList.head? ≠ some '$') (h : Leaf value s) :
      Leaf (.obj fields) s

def bangs (text : List Char) : ℕ := (text.takeWhile fun c => c = '!').length

def body (text : List Char) : List Char := text.dropWhile fun c => c = '!'

variable {toLowerCase : String → String}

theorem searchElements_iff {text : String} {xs : List JsonValue} :
    searchElements toLowerCase text xs = true ↔ ∃ x ∈ xs, searchIn toLowerCase text x = true := by
  induction xs with
  | nil => simp [searchElements]
  | cons x xs ih => simp [searchElements, ih]

theorem searchFields_iff {text : String} {fields : List (String × JsonValue)} :
    searchFields toLowerCase text fields = true ↔ ∃ key value, (key, value) ∈ fields ∧
      key.toList.head? ≠ some '$' ∧ searchIn toLowerCase text value = true := by
  induction fields with
  | nil => simp [searchFields]
  | cons e fields ih =>
    rcases e with ⟨key, value⟩
    simp only [searchFields, Bool.or_eq_true, Bool.and_eq_true, decide_eq_true_eq, ih,
      List.mem_cons, Prod.mk.injEq]
    constructor
    · rintro (⟨hk, hv⟩ | ⟨k, v, hm, hk, hv⟩)
      · exact ⟨key, value, .inl ⟨rfl, rfl⟩, hk, hv⟩
      · exact ⟨k, v, .inr hm, hk, hv⟩
    · rintro ⟨k, v, ⟨rfl, rfl⟩ | hm, hk, hv⟩
      · exact .inl ⟨hk, hv⟩
      · exact .inr ⟨k, v, hm, hk, hv⟩

theorem searchIn_iff (text : String) (obj : JsonValue) :
    searchIn toLowerCase text obj = true ↔
      ∃ s, Leaf obj s ∧ comparator toLowerCase s text = true := by
  induction obj using JsonValue.induction with
  | null =>
    constructor
    · intro h
      cases h
    · rintro ⟨s, h, _⟩
      cases h
  | bool b =>
    constructor
    · intro h
      exact ⟨_, .bool b, h⟩
    · rintro ⟨s, h, hc⟩
      cases h
      exact hc
  | num t =>
    constructor
    · intro h
      exact ⟨_, .num t, h⟩
    · rintro ⟨s, h, hc⟩
      cases h
      exact hc
  | str s =>
    constructor
    · intro h
      exact ⟨_, .str s, h⟩
    · rintro ⟨_, h, hc⟩
      cases h
      exact hc
  | arr xs ih =>
    rw [searchIn, searchElements_iff]
    constructor
    · rintro ⟨x, hx, h⟩
      obtain ⟨s, hs, hc⟩ := (ih x hx).mp h
      exact ⟨s, .element hx hs, hc⟩
    · rintro ⟨s, h, hc⟩
      cases h with
      | element hx hs => exact ⟨_, hx, (ih _ hx).mpr ⟨s, hs, hc⟩⟩
  | obj fields ih =>
    rw [searchIn, searchFields_iff]
    constructor
    · rintro ⟨key, value, hm, hk, h⟩
      obtain ⟨s, hs, hc⟩ := (ih key value hm).mp h
      exact ⟨s, .field hm hk hs, hc⟩
    · rintro ⟨s, h, hc⟩
      cases h with
      | field hm hk hs => exact ⟨_, _, hm, hk, (ih _ _ hm).mpr ⟨s, hs, hc⟩⟩

/-- The search finds the text behind the exclamation marks somewhere in the record, or nowhere
where their number is odd. -/
theorem search_iff (obj : JsonValue) (text : List Char) :
    search toLowerCase obj text = true ↔
      (Even (bangs text) ↔
        ∃ s, Leaf obj s ∧ comparator toLowerCase s (String.ofList (body text)) = true) := by
  fun_induction search toLowerCase obj text with
  | case1 text ih =>
    have hbangs : bangs ('!' :: text) = bangs text + 1 := by simp [bangs]
    have hbody : body ('!' :: text) = body text := by simp [body]
    rw [hbangs, hbody, Bool.not_eq_true', ← Bool.not_eq_true, ih, Nat.even_add_one,
      not_iff]
  | case2 text hne =>
    have hhead : ∀ c cs, text = c :: cs → c ≠ '!' := by
      rintro c cs rfl rfl
      exact hne cs rfl
    have hplain : bangs text = 0 ∧ body text = text := by
      cases text with
      | nil => exact ⟨rfl, rfl⟩
      | cons c cs => simp [bangs, body, hhead c cs rfl]
    rw [hplain.1, hplain.2, searchIn_iff]
    simp

/-! ### The chain of filters -/

inductive Stage
  | search
  | facet (f : Facet)
  | fav
  deriving DecidableEq, Repr

/-- In the order of the template. -/
def Stage.template : List Stage :=
  [.search, .facet .team, .facet .rank, .facet .region, .fav, .facet .ingame, .facet .gametype,
    .facet .champion, .facet .lang]

section

variable (toLowerCase : String → String) (expression : Option String) (s : Scope)

/-- The predicate of a stage. -/
def Stage.check (stage : Stage) (record : Record) : Except JsError Bool :=
  match stage with
  | search => .ok (filterSearch toLowerCase expression record)
  | facet f => (f.filterFn s record.stream).map truthy
  | fav => (filterfav s record.stream).map truthy

/-- The records that pass the stages one after the other. -/
def filtered (stages : List Stage) (records : List Record) : Except JsError (List Record) :=
  FilterChain.chain (Stage.check toLowerCase expression s) stages records

/-- `ng-repeat="stream in streams | filter: search | filter: filterteams | ..."` -/
def repeated (records : List Record) : Except JsError (List Record) :=
  filtered toLowerCase expression s Stage.template records

end

/-- The filters that are on and dereference what the record does not have. -/
def Stage.Unreadable (s : Scope) (record : Record) : Stage → Prop
  | facet .team => Facet.team.unfiltered s = false ∧ ∀ t, record.stream.streamer ≠ .val t
  | facet .gametype => Facet.gametype.unfiltered s = false ∧ ∀ t, record.stream.streamer ≠ .val t
  | facet .lang => Facet.lang.unfiltered s = false ∧ ∀ c, record.stream.channel ≠ .val c
  | fav => (∃ o, s.favFilter = some o ∧ o.anySelected = true) ∧
      ∀ c, record.stream.channel ≠ .val c
  | _ => False

section

variable {toLowerCase : String → String} {expression : Option String} {s : Scope}

/-- A filter function throws if something is selected and the attribute cannot be read. -/
theorem selectFrom_map_error_iff {α : Type} {o : Option JsObject} {attr : Except JsError α}
    {name : α → String} :
    (∃ e, (selectFrom o (attr.map name)).map truthy = .error e) ↔
      (∃ p, o = some p ∧ p.anySelected = true) ∧ ∃ e, attr = .error e := by
  cases o with
  | none => simp [Except.map]
  | some p =>
    rw [selectFrom_some, JsObject.select_eq]
    cases hsel : p.anySelected with
    | false => simp [Except.map, hsel]
    | true => cases attr <;> simp [Except.map, hsel]

theorem Facet.unfiltered_eq_false_iff {f : Facet} :
    f.unfiltered s = false ↔ ∃ o, f.options s = some o ∧ o.anySelected = true := by
  rw [Facet.unfiltered]
  cases f.options s <;> simp

theorem JsField.deref_error_iff {α : Type} {x : JsField α} :
    (∃ e, x.deref = .error e) ↔ ∀ a, x ≠ .val a := by
  cases x with
  | val a => simp
  | _ => exact iff_of_true ⟨_, rfl⟩ (by simp)

theorem exists_map_error_iff {α β ε : Type} {f : α → β} {x : Except ε α} :
    (∃ e, x.map f = .error e) ↔ ∃ e, x = .error e := by
  cases x <;> simp [Except.map]

theorem Stage.check_error_iff (stage : Stage) (record : Record) :
    (∃ e, stage.check toLowerCase expression s record = .error e) ↔
      stage.Unreadable s record := by
  cases stage with
  | search => simp [Stage.check, Stage.Unreadable]
  | fav =>
    rw [Stage.check, filterfav, selectFrom_map_error_iff, JsField.deref_error_iff]
    rfl
  | facet f =>
    rw [Stage.check, f.filterFn_eq, selectFrom_map_error_iff, ← Facet.unfiltered_eq_false_iff]
    cases f with
    | team =>
      rw [Facet.attr, Dimension.attr, exists_map_error_iff, JsField.deref_error_iff]
      rfl
    | gametype =>
      rw [Facet.attr, exists_map_error_iff, JsField.deref_error_iff]
      rfl
    | lang =>
      rw [Facet.attr, Dimension.attr, exists_map_error_iff, JsField.deref_error_iff]
      rfl
    | _ => simp [Facet.attr, Dimension.attr, Stage.Unreadable]

theorem Stage.not_unreadable {record : Record} (h : record.stream.Complete) (stage : Stage) :
    ¬ stage.Unreadable s record := by
  obtain ⟨⟨c, hc⟩, t, ht⟩ := h
  cases stage with
  | search => exact id
  | fav => exact fun hu => hu.2 c hc
  | facet f =>
    cases f with
    | team => exact fun hu => hu.2 t ht
    | gametype => exact fun hu => hu.2 t ht
    | lang => exact fun hu => hu.2 c hc
    | _ => exact id

/-- Records that are complete get through every chain. -/
theorem settled_of_complete {record : Record} (h : record.stream.Complete) (stages : List Stage) :
    FilterChain.Settled (Stage.check toLowerCase expression s) stages record := by
  rw [FilterChain.settled_iff]
  intro before stage after _ herror
  exact absurd ((stage.check_error_iff record).mp herror) (stage.not_unreadable h)

/-- In whatever order the nine filters stand, they run through exactly when each record that one
of them cannot read is turned down by a filter before it; and then the list is the same. -/
theorem chain_order {stages : List Stage} (hperm : stages.Perm Stage.template)
    (records : List Record) :
    ((∃ l, filtered toLowerCase expression s stages records = .ok l) ↔
      ∀ record ∈ records, ∀ before stage after, stages = before ++ stage :: after →
        stage.Unreadable s record →
          ∃ earlier ∈ before, earlier.check toLowerCase expression s record = .ok false) ∧
    ∀ l, filtered toLowerCase expression s stages records = .ok l →
      l = records.filter fun record => Stage.template.all fun stage =>
        FilterChain.passes (stage.check toLowerCase expression s record) := by
  refine ⟨?_, fun l hl => FilterChain.chain_perm hperm hl⟩
  simp only [filtered, FilterChain.chain_eq_ok_iff, FilterChain.settled_iff, Stage.check_error_iff]
  constructor
  · rintro ⟨_, hall, -⟩
    exact hall
  · intro hall
    exact ⟨_, hall, rfl⟩

/-- What the attributes make of the list is what they make of the records that the search box
and the favourites leave. -/
theorem shown_of_repeated {records l : List Record}
    (h : repeated toLowerCase expression s records = .ok l) :
    l.map Record.stream = shown s ((records.filter fun record =>
      filterSearch toLowerCase expression record &&
        accepts (filterfav s record.stream)).map Record.stream) := by
  have hpasses : ∀ r : Except JsError (Option Value),
      FilterChain.passes (r.map truthy) = accepts r := by
    intro r
    cases r <;> rfl
  obtain ⟨-, rfl⟩ := FilterChain.chain_eq_ok_iff.mp h
  rw [shown, foldl_filter_eq (fun (f : Facet) x => accepts (f.filterFn s x)),
    List.filter_map, List.filter_filter]
  apply congrArg (List.map Record.stream)
  apply List.filter_congr
  intro record _
  simp only [Stage.template, Facet.all, List.all_cons, List.all_nil, Stage.check, hpasses,
    Function.comp_apply, Bool.and_true]
  simp only [FilterChain.passes]
  ac_rfl

end

/-! ### Typing -/

theorem bangs_append {text : List Char} (h : body text ≠ []) (more : List Char) :
    bangs (text ++ more) = bangs text ∧ body (text ++ more) = body text ++ more := by
  induction text with
  | nil => exact absurd rfl h
  | cons c cs ih =>
    by_cases hc : c = '!'
    · subst hc
      have hcs : body cs ≠ [] := by simpa [body] using h
      obtain ⟨hb, hbody⟩ := ih hcs
      constructor
      · simpa [bangs] using hb
      · simpa [body] using hbody
    · simp [bangs, body, hc]

theorem comparator_of_infix {obj text longer : String}
    (h : (toLowerCase text).toList <:+: (toLowerCase longer).toList)
    (hc : comparator toLowerCase obj longer = true) : comparator toLowerCase obj text = true := by
  simp only [comparator, decide_eq_true_eq] at hc ⊢
  exact h.trans hc

/-- The search comes first and never throws. -/
theorem repeated_eq (expression : Option String) (s : Scope) (records : List Record) :
    repeated toLowerCase expression s records =
      filtered toLowerCase none s Stage.template.tail
        (records.filter (filterSearch toLowerCase expression)) := by
  have hsearch : FilterChain.filter (Stage.check toLowerCase expression s .search) records =
      .ok (records.filter (filterSearch toLowerCase expression)) :=
    FilterChain.filter_eq_ok_iff.mpr ⟨fun record _ => ⟨_, rfl⟩, rfl⟩
  rw [repeated, filtered, Stage.template, FilterChain.chain, hsearch]
  rfl

theorem repeated_sublist {typed longer : Option String} {s : Scope} {records l : List Record}
    (h : ∀ record ∈ records, filterSearch toLowerCase typed record = true →
      filterSearch toLowerCase longer record = true)
    (hl : repeated toLowerCase longer s records = .ok l) :
    ∃ l', repeated toLowerCase typed s records = .ok l' ∧ l'.Sublist l := by
  have hsub : records.filter (filterSearch toLowerCase typed) =
      (records.filter (filterSearch toLowerCase longer)).filter
        (filterSearch toLowerCase typed) := by
    rw [List.filter_filter]
    apply List.filter_congr
    intro record hm
    cases ht : filterSearch toLowerCase typed record with
    | false => simp
    | true => simp [h record hm ht]
  rw [repeated_eq] at hl ⊢
  rw [hsub]
  exact FilterChain.chain_sublist List.filter_sublist hl

/-- Once something other than exclamation marks has been typed, typing on only takes records
away and lets no filter throw that did not throw before; where the number of exclamation marks
is odd, so does taking back what has been typed on. -/
theorem typing_narrows {text more : List Char} (hbody : body text ≠ [])
    (hlower : (toLowerCase (String.ofList (body text))).toList <:+:
      (toLowerCase (String.ofList (body text ++ more))).toList) (s : Scope)
    (records : List Record) :
    (Even (bangs text) → ∀ l, repeated toLowerCase (some (String.ofList text)) s records = .ok l →
      ∃ l', repeated toLowerCase (some (String.ofList (text ++ more))) s records = .ok l' ∧
        l'.Sublist l) ∧
    (¬ Even (bangs text) → ∀ l,
      repeated toLowerCase (some (String.ofList (text ++ more))) s records = .ok l →
        ∃ l', repeated toLowerCase (some (String.ofList text)) s records = .ok l' ∧
          l'.Sublist l) := by
  obtain ⟨hbangs, hmore⟩ := bangs_append hbody more
  have hfound : ∀ obj, (∃ t, Leaf obj t ∧
      comparator toLowerCase t (String.ofList (body text ++ more)) = true) →
        ∃ t, Leaf obj t ∧ comparator toLowerCase t (String.ofList (body text)) = true := by
    rintro obj ⟨t, ht, hc⟩
    exact ⟨t, ht, comparator_of_infix hlower hc⟩
  constructor
  · intro heven l hl
    refine repeated_sublist ?_ hl
    intro record _ h
    simp only [filterSearch, String.toList_ofList, search_iff, hbangs, hmore, heven,
      true_iff] at h ⊢
    exact hfound record.json h
  · intro hodd l hl
    refine repeated_sublist ?_ hl
    intro record _ h
    simp only [filterSearch, String.toList_ofList, search_iff, hbangs, hmore, hodd,
      false_iff] at h ⊢
    exact fun hlonger => h (hfound record.json hlonger)

/-! ### The cleared box -/

theorem JsField.ofJson_val {α : Type} {read : JsonValue → Option α} {o : Option JsonValue} {a : α}
    (h : JsField.ofJson read o = some (.val a)) : ∃ v, o = some v ∧ read v = some a := by
  unfold JsField.ofJson at h
  split at h
  · cases h
  · cases h
  · rename_i v _
    obtain ⟨b, hb, hab⟩ := Option.map_eq_some_iff.mp h
    cases hab
    exact ⟨v, rfl, hb⟩

theorem leaf_of_channelJson {v : JsonValue} {c : Channel} (h : Channel.ofJson v = some c) :
    Leaf v c.name := by
  cases v with
  | obj fields =>
    simp only [Channel.ofJson, Option.bind_eq_bind, Option.bind_eq_some_iff] at h
    obtain ⟨name, ⟨value, hlookup, htext⟩, _, _, hc⟩ := h
    cases value with
    | str name =>
      cases htext
      obtain rfl := Option.some.inj hc
      exact .field (Entries.mem_of_lookup hlookup) (by decide) (.str _)
    | _ => cases htext
  | _ => cases h

/-- A record with a channel has a text for the search to look at. -/
theorem leaf_of_channel {json : JsonValue} {stream : Stream} {c : Channel}
    (hreads : Stream.ofJson json = some stream) (hc : stream.channel = .val c) :
    Leaf json c.name := by
  cases json with
  | obj fields =>
    simp only [Stream.ofJson, Option.bind_eq_bind, Option.bind_eq_some_iff] at hreads
    obtain ⟨_, _, _, _, _, _, _, _, _, _, channel, hchannel, _, _, hstream⟩ := hreads
    obtain rfl := Option.some.inj hstream
    obtain rfl : channel = .val c := hc
    obtain ⟨v, hv, hread⟩ := JsField.ofJson_val hchannel
    exact .field (Entries.mem_of_lookup hv) (by decide) (leaf_of_channelJson hread)
  | _ => cases hreads

/-- Clearing the box brings back every record, as if nothing had ever been typed. -/
theorem cleared_box (hempty : toLowerCase "" = "") (s : Scope) {records : List Record}
    (hc : ∀ record ∈ records, record.stream.Complete) :
    ∃ l, repeated toLowerCase none s records = .ok l ∧
      repeated toLowerCase (some "") s records = .ok l := by
  have hfound : ∀ record ∈ records, filterSearch toLowerCase (some "") record = true := by
    intro record hm
    obtain ⟨⟨c, hchannel⟩, -⟩ := hc record hm
    have hleaf := leaf_of_channel record.reads hchannel
    have hcompare : comparator toLowerCase c.name "" = true := by simp [comparator, hempty]
    exact (searchIn_iff "" record.json).mpr ⟨c.name, hleaf, hcompare⟩
  have hrun : repeated toLowerCase none s records = .ok _ :=
    FilterChain.chain_eq_ok_iff.mpr ⟨fun record hm => settled_of_complete (hc record hm) _, rfl⟩
  have hall : records.filter (filterSearch toLowerCase (some "")) =
      records.filter (filterSearch toLowerCase none) := by
    rw [List.filter_eq_self.mpr hfound, eq_comm, List.filter_eq_self]
    exact fun _ _ => rfl
  refine ⟨_, hrun, ?_⟩
  rw [repeated_eq, hall, ← repeated_eq]
  exact hrun

/-! ### A list to search -/

/-- `toLowerCase` on ASCII letters. -/
def asciiLower (s : String) : String := String.ofList (s.toList.map Char.toLower)

def dyrusJson : JsonValue :=
  .obj [("champion", .str "Ahri"), ("championname", .str "Ahri"), ("viewers", .num "1201"),
    ("channel", .obj [("name", .str "dyrus"), ("broadcaster_language", .str "en")]),
    ("streamer", .obj [("team", .str "tsm"), ("gender", .num "1")])]

def dyrusRecord : Record where
  json := dyrusJson
  stream := ⟨.val "Ahri", .val "Ahri", .undefined, .undefined, .undefined,
    .val ⟨"dyrus", .val "en"⟩, .val ⟨.val "tsm", .val 1⟩⟩
  reads := by decide

theorem complete_dyrusRecord : ∀ record ∈ [dyrusRecord], record.stream.Complete := by
  intro record hm
  rw [List.mem_singleton.mp hm]
  exact ⟨⟨_, rfl⟩, _, rfl⟩

/-- Without a streamer, and of no rank. -/
def unrankedRecord : Record where
  json := .obj [("channel", .obj [("name", .str "riotgames")])]
  stream := ⟨.undefined, .undefined, .undefined, .undefined, .undefined,
    .val ⟨"riotgames", .undefined⟩, .undefined⟩
  reads := by decide

/-- The rank filter turns the record down before the game type is asked for, and after it in
the opposite order. -/
theorem chain_order_unranked :
    let s := clickGametype 1 (clickRank "GOLD" .start)
    (∃ l, filtered asciiLower none s Stage.template [unrankedRecord] = .ok l) ∧
      ¬ ∃ l, filtered asciiLower none s Stage.template.reverse [unrankedRecord] = .ok l := by
  constructor
  · exact ⟨[], rfl⟩
  · intro h
    have hall := (chain_order (List.reverse_perm _) [unrankedRecord]).1.mp h
    obtain ⟨earlier, hm, hfalse⟩ := hall unrankedRecord (List.mem_singleton_self _)
      [.facet .lang, .facet .champion] (.facet .gametype) _ rfl ⟨by decide, by simp [unrankedRecord]⟩
    revert earlier
    decide

theorem typing_narrows_dyrus :
    ∃ l, repeated asciiLower (some "Dyr") .start [dyrusRecord] = .ok l ∧
      l.Sublist [dyrusRecord] :=
  (@typing_narrows asciiLower ['D', 'y'] ['r'] (by decide) (by decide) .start [dyrusRecord]).1
    (by decide) [dyrusRecord] rfl

theorem cleared_box_dyrus :
    ∃ l, repeated asciiLower none .start [dyrusRecord] = .ok l ∧
      repeated asciiLower (some "") .start [dyrusRecord] = .ok l :=
  cleared_box rfl .start complete_dyrusRecord

end LolStreams
