import LolStreams.EditHandler
import LolStreams.Register

/-! Edits of one streamer whose database steps interleave. Each field of the document is a
register of its own, since a write carries only the fields that the request has changed. -/
namespace LolStreams

open Ruby

structure Concurrent (ι : Type) where
  stored : Streamer
  progress : ι → Progress

namespace Concurrent

variable {ι : Type} [DecidableEq ι] (conv : Conversions) (password : Option String)

def start (stored : Streamer) : Concurrent ι := ⟨stored, fun _ => .waiting⟩

/-- The next database step of one of the requests. -/
def step (req : ι → EditRequest) (s : Concurrent ι) (i : ι) : Option (Concurrent ι) :=
  match s.progress i with
  | .finished _ => none
  | progress =>
    let r := advance conv password (req i) s.stored progress
    some ⟨r.1, Function.update s.progress i r.2⟩

end Concurrent

/-! ### Fields as registers -/

/-- A field of the document that is compared and written as a whole. -/
structure Field (V : Type) where
  get : Streamer → V
  same : V → V → Bool
  get_save : ∀ saved doc stored, get (save saved doc stored) =
    if same (get saved) (get doc) then get stored else get doc

def teamField : Field (Option String) :=
  ⟨Streamer.team, fun a b => a = b, fun _ _ _ => by simp [save]⟩

def genderField : Field (Option ℤ) :=
  ⟨Streamer.gender, fun a b => a = b, fun _ _ _ => by simp [save]⟩

def namesField : Field (Option Hash) :=
  ⟨Streamer.summonerNames, sameNames, fun _ _ _ => rfl⟩

namespace Field

variable {V : Type} (φ : Field V)

/-- The handler writes the first value of the client, then the second. -/
structure Writes (conv : Conversions) (form : EditForm) (c : Register.Client V) : Prop where
  raw : ∀ doc, φ.get (form.apply conv doc) = c.raw
  final : ∀ doc, φ.get doc = c.raw →
    φ.get { doc with summonerNames := some form.names.cleaned.toHash } = c.final

/-- The progress of a request as the register sees it. -/
inductive Shows (form : EditForm) (c : Register.Client V) : Progress → Register.Phase V → Prop
  | waiting : Shows form c .waiting .waiting
  | found (loaded : Streamer) : Shows form c (.found loaded) (.found (φ.get loaded))
  | updated (saved : Streamer) (hn : saved.summonerNames = some form.names.toHash)
      (hv : φ.get saved = c.raw) : Shows form c (.updated saved) .updated
  | finished (raised : Option Exn) : Shows form c (.finished raised) .finished

variable {ι : Type} [DecidableEq ι] (conv : Conversions) (password : Option String)
  (form : ι → EditForm) (client : ι → Register.Client V)

structure Abstracts (s : Concurrent ι) (r : Register.State ι V) : Prop where
  stored : φ.get s.stored = r.stored
  phase : ∀ i, φ.Shows (form i) (client i) (s.progress i) (r.phase i)

variable {φ} {conv} {form} {client}

theorem Abstracts.update {s : Concurrent ι} {r : Register.State ι V}
    (h : φ.Abstracts form client s r) {i : ι} {stored : Streamer} {progress : Progress}
    {phase : Register.Phase V} (hp : φ.Shows (form i) (client i) progress phase) :
    φ.Abstracts form client ⟨stored, Function.update s.progress i progress⟩
      ⟨φ.get stored, Function.update r.phase i phase⟩ := by
  refine ⟨rfl, ?_⟩
  intro j
  by_cases he : j = i
  · subst he
    simpa using hp
  · simpa [Function.update_of_ne he] using h.phase j

/-- Every database step is a step of the register. -/
theorem abstracts_step (hw : ∀ i, φ.Writes conv (form i) (client i)) {s t : Concurrent ι}
    {r : Register.State ι V} {i : ι} (h : φ.Abstracts form client s r)
    (ht : Concurrent.step conv password (fun i => (form i).request password) s i = some t) :
    ∃ u, Register.step φ.same client r i = some u ∧ φ.Abstracts form client t u := by
  have hshows := h.phase i
  have hstored := h.stored
  cases hs : s.progress i with
  | waiting =>
    rw [hs] at hshows
    generalize hr : r.phase i = phase at hshows
    cases hshows with
    | waiting =>
      simp only [Concurrent.step, hs, advance, Option.some.injEq] at ht
      subst ht
      refine ⟨_, Register.step_waiting hr, ?_⟩
      rw [← hstored]
      exact h.update (.found s.stored)
  | found loaded =>
    rw [hs] at hshows
    generalize hr : r.phase i = phase at hshows
    cases hshows with
    | found =>
      simp only [Concurrent.step, hs, advance_found, Option.some.injEq] at ht
      subst ht
      refine ⟨_, Register.step_found hr, ?_⟩
      have hsave := φ.get_save loaded ((form i).apply conv loaded) s.stored
      rw [(hw i).raw loaded, hstored] at hsave
      rw [← hsave]
      exact h.update (.updated _ rfl ((hw i).raw loaded))
  | updated saved =>
    rw [hs] at hshows
    generalize hr : r.phase i = phase at hshows
    cases hshows with
    | updated _ hn hv =>
      simp only [Concurrent.step, hs, advance_updated conv password (form i) s.stored saved hn,
        Option.some.injEq] at ht
      subst ht
      refine ⟨_, Register.step_updated hr, ?_⟩
      have hsave := φ.get_save saved
        { saved with summonerNames := some (form i).names.cleaned.toHash } s.stored
      rw [(hw i).final saved hv, hv, hstored] at hsave
      rw [← hsave]
      exact h.update (.finished none)
  | finished raised => simp [Concurrent.step, hs] at ht

/-- In the end the field has the value that one of the requests leaves it with. -/
theorem final_of_finished (hw : ∀ i, φ.Writes conv (form i) (client i))
    (hrefl : ∀ i, φ.same (client i).raw (client i).raw = true ∧
      φ.same (client i).final (client i).final = true)
    (htrans : ∀ a b c, φ.same a b = true → φ.same b c = true → φ.same a c = true)
    {stored : Streamer} {s : Concurrent ι}
    (h : Runs.Reaches (Concurrent.step conv password fun i => (form i).request password)
      (.start stored) s)
    (hf : ∀ i, ∃ raised, s.progress i = .finished raised) (i : ι) :
    ∃ j, φ.same (φ.get s.stored) (client j).final = true := by
  have hstart : φ.Abstracts form client (.start stored) (Register.start (φ.get stored)) :=
    ⟨rfl, fun _ => .waiting⟩
  have hstep : ∀ t i u r, φ.Abstracts form client t r →
      Concurrent.step conv password (fun i => (form i).request password) t i = some u →
        ∃ q, Register.step φ.same client r i = some q ∧ φ.Abstracts form client u q :=
    fun _ _ _ _ hab ht => abstracts_step password hw hab ht
  obtain ⟨r, hr, ha⟩ := Runs.Reaches.simulate hstep h hstart
  have hfinished : ∀ i, r.phase i = .finished := by
    intro j
    obtain ⟨raised, hj⟩ := hf j
    have hshows := ha.phase j
    rw [hj] at hshows
    generalize r.phase j = phase at hshows ⊢
    cases hshows with
    | finished => rfl
  obtain ⟨j, hj⟩ := Register.final_of_finished hrefl htrans hr hfinished i
  exact ⟨j, by rw [ha.stored]; exact hj⟩

end Field

def teamClient (form : EditForm) : Register.Client (Option String) :=
  ⟨some form.team, some form.team⟩

def genderClient (conv : Conversions) (form : EditForm) : Register.Client (Option ℤ) :=
  ⟨mongoizeInteger conv (.str form.gender), mongoizeInteger conv (.str form.gender)⟩

def namesClient (form : EditForm) : Register.Client (Option Hash) :=
  ⟨some form.names.toHash, some form.names.cleaned.toHash⟩

theorem teamField_writes (conv : Conversions) (form : EditForm) :
    teamField.Writes conv form (teamClient form) :=
  ⟨fun _ => rfl, fun _ h => h⟩

theorem genderField_writes (conv : Conversions) (form : EditForm) :
    genderField.Writes conv form (genderClient conv form) :=
  ⟨fun _ => rfl, fun _ h => h⟩

theorem namesField_writes (conv : Conversions) (form : EditForm) :
    namesField.Writes conv form (namesClient form) :=
  ⟨fun _ => rfl, fun _ _ => rfl⟩

/-! ### The fields that the form does not submit -/

/-- The same name and rank. -/
def Streamer.SameRecord (d x : Streamer) : Prop := d.name = x.name ∧ d.rank = x.rank

theorem sameRecord_save {d saved doc stored : Streamer} (h₁ : saved.SameRecord d)
    (h₂ : doc.SameRecord d) (h₃ : stored.SameRecord d) :
    (save saved doc stored).SameRecord d := by
  simp only [Streamer.SameRecord] at h₁ h₂ h₃
  simp [Streamer.SameRecord, save, h₁, h₂, h₃]

namespace Concurrent

variable {ι : Type}

structure SameRecord (d : Streamer) (s : Concurrent ι) : Prop where
  stored : s.stored.SameRecord d
  found : ∀ i loaded, s.progress i = .found loaded → loaded.SameRecord d
  updated : ∀ i saved, s.progress i = .updated saved → saved.SameRecord d

variable [DecidableEq ι] {d : Streamer} {s t : Concurrent ι}

theorem SameRecord.update (h : s.SameRecord d) {i : ι} {stored : Streamer} {progress : Progress}
    (hs : stored.SameRecord d) (hf : ∀ loaded, progress = .found loaded → loaded.SameRecord d)
    (hu : ∀ saved, progress = .updated saved → saved.SameRecord d) :
    SameRecord d ⟨stored, Function.update s.progress i progress⟩ := by
  refine ⟨hs, ?_, ?_⟩
  · intro j loaded hj
    by_cases he : j = i
    · subst he
      exact hf loaded (by simpa using hj)
    · simp only [Function.update_of_ne he] at hj
      exact h.found j loaded hj
  · intro j saved hj
    by_cases he : j = i
    · subst he
      exact hu saved (by simpa using hj)
    · simp only [Function.update_of_ne he] at hj
      exact h.updated j saved hj

theorem sameRecord_step {conv : Conversions} {password : Option String} {form : ι → EditForm}
    {i : ι} (h : s.SameRecord d)
    (ht : step conv password (fun i => (form i).request password) s i = some t) :
    t.SameRecord d := by
  cases hs : s.progress i with
  | waiting =>
    simp only [step, hs, advance, Option.some.injEq] at ht
    subst ht
    refine h.update h.stored ?_ (by simp)
    intro loaded hl
    cases hl
    exact h.stored
  | found loaded =>
    simp only [step, hs, advance_found, Option.some.injEq] at ht
    subst ht
    have hloaded := h.found i loaded hs
    have happly : ((form i).apply conv loaded).SameRecord d := hloaded
    refine h.update (sameRecord_save hloaded happly h.stored) (by simp) ?_
    intro saved hu
    cases hu
    exact happly
  | updated saved =>
    have hsaved := h.updated i saved hs
    simp only [step, hs, advance, Option.some.injEq] at ht
    subst ht
    cases hn : saved.summonerNames with
    | none => exact h.update h.stored (by simp) (by simp)
    | some names =>
      simp only
      cases hc : cleanUp names with
      | error e => exact h.update h.stored (by simp) (by simp)
      | ok cleaned =>
        have hcleaned : Streamer.SameRecord { saved with summonerNames := some cleaned } d := hsaved
        exact h.update (sameRecord_save hsaved hcleaned h.stored) (by simp) (by simp)
  | finished raised => simp [step, hs] at ht

section

variable {conv : Conversions} {password : Option String} {form : ι → EditForm}
  (h : Runs.Reaches (step conv password fun i => (form i).request password) (.start d) s)
include h

theorem sameRecord_of_reaches : s.stored.SameRecord d := by
  have hrec : s.SameRecord d := by
    refine Runs.Reaches.invariant ?_ (fun _ _ _ hi ht => sameRecord_step hi ht) h
    refine ⟨⟨rfl, rfl⟩, ?_, ?_⟩
    · intro i loaded hl
      cases hl
    · intro i saved hu
      cases hu
  exact hrec.stored

/-- Once all requests are done, each field is the one that some request submits. -/
theorem fields_of_finished (hf : ∀ i, ∃ raised, s.progress i = .finished raised) (i : ι) :
    (∃ t, s.stored.team = some (form t).team) ∧
      (∃ g, s.stored.gender = mongoizeInteger conv (.str (form g).gender)) ∧
      ∃ n, sameNames s.stored.summonerNames (some (form n).names.cleaned.toHash) = true := by
  refine ⟨?_, ?_, ?_⟩
  · obtain ⟨t, ht⟩ := Field.final_of_finished password (fun i => teamField_writes conv (form i))
      (fun i => by simp [teamField]) (by simp [teamField]) h hf i
    exact ⟨t, by simpa [teamField, teamClient] using ht⟩
  · obtain ⟨g, hg⟩ := Field.final_of_finished password
      (fun i => genderField_writes conv (form i))
      (fun i => by simp [genderField]) (by simp [genderField]) h hf i
    exact ⟨g, by simpa [genderField, genderClient] using hg⟩
  · exact Field.final_of_finished password (fun i => namesField_writes conv (form i))
      (fun i => ⟨sameNames_refl _, sameNames_refl _⟩) (fun _ _ _ => sameNames_trans) h hf i

end

end Concurrent

/-! ### Requests that do not interleave -/

section
variable (conv : Conversions) (password : Option String)

/-- The two requests one after the other. -/
def serial (stored : Streamer) (first second : EditForm) : Streamer :=
  (edit conv password (second.request password)
    (edit conv password (first.request password) stored).1).1

/-- A serial run has the fields of the second form, and the record is the stored one. -/
theorem serial_fields (stored : Streamer) (first second : EditForm) :
    (serial conv password stored first second).SameRecord stored ∧
      (serial conv password stored first second).team = some second.team ∧
      (serial conv password stored first second).gender =
        mongoizeInteger conv (.str second.gender) ∧
      sameNames (serial conv password stored first second).summonerNames
        (some second.names.cleaned.toHash) = true := by
  refine ⟨?_, ?_, ?_, sameNames_edit conv password second _⟩
  · simp [serial, edit_request, save, EditForm.apply, Streamer.SameRecord]
  · simp only [serial, edit_request, save, EditForm.apply]
    simp
  · simp only [serial, edit_request, save, EditForm.apply]
    simp

end

/-! ### Two interleaved requests -/

inductive Side
  | first
  | second
  deriving DecidableEq, Repr

namespace Streamer

/-- Equal documents, hashes up to the order of their entries. -/
def Same (d x : Streamer) : Prop :=
  d.SameRecord x ∧ d.team = x.team ∧ d.gender = x.gender ∧
    sameNames d.summonerNames x.summonerNames = true

/-- Each field is that of one of two documents, not all necessarily of the same one. -/
def Mixes (d x y : Streamer) : Prop :=
  d.SameRecord x ∧ d.SameRecord y ∧ (d.team = x.team ∨ d.team = y.team) ∧
    (d.gender = x.gender ∨ d.gender = y.gender) ∧
    (sameNames d.summonerNames x.summonerNames = true ∨
      sameNames d.summonerNames y.summonerNames = true)

end Streamer

/-- Every interleaving ends with each field as one of the two serial orders leaves it, and with
the stored name and rank. -/
theorem interleaved_edits_mix (conv : Conversions) (password : Option String)
    (stored : Streamer) (form : Side → EditForm) (s : Concurrent Side)
    (h : Runs.Reaches (Concurrent.step conv password fun i => (form i).request password)
      (.start stored) s)
    (hf : ∀ i, ∃ raised, s.progress i = .finished raised) :
    s.stored.SameRecord stored ∧
      s.stored.Mixes (serial conv password stored (form .first) (form .second))
        (serial conv password stored (form .second) (form .first)) := by
  obtain ⟨hrec₁, hteam₁, hgender₁, hnames₁⟩ :=
    serial_fields conv password stored (form .first) (form .second)
  obtain ⟨hrec₂, hteam₂, hgender₂, hnames₂⟩ :=
    serial_fields conv password stored (form .second) (form .first)
  have hrec : s.stored.SameRecord stored := Concurrent.sameRecord_of_reaches h
  obtain ⟨hteam, hgender, hnames⟩ := Concurrent.fields_of_finished h hf .first
  refine ⟨hrec, ⟨hrec.1.trans hrec₁.1.symm, hrec.2.trans hrec₁.2.symm⟩,
    ⟨hrec.1.trans hrec₂.1.symm, hrec.2.trans hrec₂.2.symm⟩, ?_, ?_, ?_⟩
  · obtain ⟨i, hi⟩ := hteam
    cases i with
    | first => exact .inr (hi.trans hteam₂.symm)
    | second => exact .inl (hi.trans hteam₁.symm)
  · obtain ⟨i, hi⟩ := hgender
    cases i with
    | first => exact .inr (hi.trans hgender₂.symm)
    | second => exact .inl (hi.trans hgender₁.symm)
  · obtain ⟨i, hi⟩ := hnames
    cases i with
    | first => exact .inr (sameNames_trans hi (sameNames_symm hnames₂))
    | second => exact .inl (sameNames_trans hi (sameNames_symm hnames₁))

/-- The names of a streamer with one account. -/
def oneAccount (name : String) : Names :=
  ⟨[("NA", ⟨[("Main", name)], List.nodup_singleton _⟩)], List.nodup_singleton _⟩

/-- One request changes the team only, the other the names only. -/
def teamAndNames : Side → EditForm
  | .first => ⟨"tsm", "1", oneAccount "dyrus"⟩
  | .second => ⟨"", "1", oneAccount "imaqtpie"⟩

def unattached : Streamer :=
  ⟨some "dyrus", some (oneAccount "dyrus").toHash, some 1, some "", none⟩

/-- Both requests find the document before either writes. -/
def overlapping : Option (Concurrent Side) :=
  Runs.run (Concurrent.step noConversions none fun i => (teamAndNames i).request none)
    (.start unattached) [.first, .second, .first, .first, .second, .second]

theorem overlapping_finishes :
    ∃ s, overlapping = some s ∧ (∀ i, ∃ raised, s.progress i = .finished raised) ∧
      s.stored.team = some "tsm" ∧
      s.stored.summonerNames = some (oneAccount "imaqtpie").toHash := by
  refine ⟨_, rfl, ?_, rfl, rfl⟩
  intro i
  cases i <;> exact ⟨none, rfl⟩

theorem interleaved_edits_mix_dyrus :
    ∃ s, overlapping = some s ∧ s.stored.SameRecord unattached ∧ s.stored.Mixes
      (serial noConversions none unattached (teamAndNames .first) (teamAndNames .second))
      (serial noConversions none unattached (teamAndNames .second) (teamAndNames .first)) := by
  obtain ⟨s, hs, hf, _⟩ := overlapping_finishes
  exact ⟨s, hs, interleaved_edits_mix noConversions none unattached teamAndNames s
    (Runs.reaches_of_run hs) hf⟩

/-- The team is that of the first request and the names are those of the second, which no
serial order gives. -/
theorem interleaved_edits_not_serial :
    ¬ ∀ conv password (stored : Streamer) (form : Side → EditForm) (s : Concurrent Side),
      Runs.Reaches (Concurrent.step conv password fun i => (form i).request password)
        (.start stored) s →
      (∀ i, ∃ raised, s.progress i = .finished raised) →
      s.stored.Same (serial conv password stored (form .first) (form .second)) ∨
        s.stored.Same (serial conv password stored (form .second) (form .first)) := by
  intro h
  obtain ⟨s, hs, hf, hteam, hnames⟩ := overlapping_finishes
  rcases h noConversions none unattached teamAndNames s (Runs.reaches_of_run hs) hf with
    ⟨_, ht, _⟩ | ⟨_, _, _, hn⟩
  · obtain ⟨_, hserial, _⟩ := serial_fields noConversions none unattached
      (teamAndNames .first) (teamAndNames .second)
    rw [hteam, hserial] at ht
    exact absurd ht (by decide)
  · obtain ⟨_, _, _, hserial⟩ := serial_fields noConversions none unattached
      (teamAndNames .second) (teamAndNames .first)
    rw [hnames] at hn
    exact absurd (sameNames_trans hn hserial) (by decide)

end LolStreams
