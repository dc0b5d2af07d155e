import LolStreams.StreamLinks
import LolStreams.StreamList

/-! The controller of the stream state: each entry issues a request and starts a timer that
issues another every 30 seconds, and every answer is installed as the active streamer. Where
an entry ends is up to the router, which may send the page home at once. -/
namespace LolStreams

/-- `streams.find { |x| x['channel']['name'] == params[:name] }`, where a record without a
channel raises and the request fails. -/
def findStream (name : String) : List Stream → Option (Option Stream)
  | [] => some none
  | x :: xs =>
    match x.channel with
    | .val c => if c.name = name then some (some x) else findStream name xs
    | _ => none

/-- The root scope and the router. `activestreamer` is undefined until an answer comes in,
and a `null` body leaves it an empty resource. -/
structure Page where
  state : Option String
  showstreamer : Bool
  activestream : Option String
  activestreamer : Option (Option Stream)
  timers : ℕ
  inflight : List String

inductive PageEvent
  | showstream (name : String)
  | closestream
  | tick
  | answer (name : String) (streams : List Stream)
  | failure (name : String)

namespace Page

def start : Page := ⟨none, false, none, none, 0, []⟩

/-- The path in the address bar. -/
def path (p : Page) : String := "/" ++ p.state.getD ""

/-- The stream state's controller. -/
def enter (p : Page) (name : String) : Page :=
  { p with
    state := some name
    showstreamer := true
    activestream := some name
    timers := p.timers + 1
    inflight := name :: p.inflight }

/-- `$stateChangeSuccess` after the router has settled the address. The home state has no
controller, and nothing cancels a timer. -/
def settle (p : Page) (state : Option String) : Page :=
  { p with state := state, showstreamer := state.isSome }

@[simp] theorem timers_enter (p : Page) (name : String) : (p.enter name).timers = p.timers + 1 := rfl

@[simp] theorem timers_settle (p : Page) (state : Option String) :
    (p.settle state).timers = p.timers := rfl

@[simp] theorem inflight_settle (p : Page) (state : Option String) :
    (p.settle state).inflight = p.inflight := rfl

/-- Going to the state the page is in does nothing. Otherwise the controller runs, also where
the router then has no state for the address and `otherwise` sends the page home. -/
def step (p : Page) : PageEvent → Option Page
  | .showstream name =>
    if p.state = some name then some p
    else (goStream p.path name).map fun settled => (p.enter name).settle settled.2
  | .closestream => some (p.settle none)
  | .tick =>
    match p.timers, p.activestream with
    | _ + 1, some name => some { p with inflight := name :: p.inflight }
    | _, _ => none
  | .answer name streams =>
    if name ∈ p.inflight then
      match findStream name streams with
      | some record =>
        some { p with activestreamer := some record, inflight := p.inflight.erase name }
      | none => none
    else none
  | .failure name =>
    if name ∈ p.inflight then some { p with inflight := p.inflight.erase name } else none

/-- The router has a state for the address of the stream. -/
def Lands (p : Page) (name : String) : Prop :=
  (p.state = none ∧ name = "") ∨ (name ≠ "" ∧ '/' ∉ name.toList)

instance (p : Page) (name : String) : Decidable (p.Lands name) :=
  inferInstanceAs (Decidable ((_ ∧ _) ∨ (_ ∧ _)))

/-- The page leaves a stream state only once its requests are answered, unless for the state
they are for, it is not sent home on entry, and no timer fires in the home state. -/
def Unhurried (p : Page) : PageEvent → Prop
  | .showstream name =>
    p.state = some name ∨ (p.Lands name ∧ ∀ asked ∈ p.inflight, asked = name)
  | .closestream => p.inflight = []
  | .tick => p.state ≠ none
  | _ => True

/-! ### Entries -/

theorem goStream_path {p : Page} {name : String} (h : p.state ≠ some name) :
    goStream p.path name =
      some (if p.Lands name then ("/" ++ name, some name) else ("/", none)) := by
  have hsame : "/" ++ name = p.path ↔ p.state = none ∧ name = "" := by
    rw [path, String.append_right_inj]
    cases hs : p.state with
    | none => simp
    | some n =>
      rw [hs] at h
      simpa using fun he => h (by rw [he])
  rw [goStream_eq]
  simp only [hsame, Lands]
  grind

/-- An entry ends in the stream state or, with its timer and its request, in the home state. -/
theorem step_showstream {p : Page} {name : String} (h : p.state ≠ some name) :
    p.step (.showstream name) =
      some ((p.enter name).settle (if p.Lands name then some name else none)) := by
  rw [step, if_neg h, goStream_path h]
  split_ifs <;> rfl

theorem step_enter {p : Page} {name : String} (h : p.state ≠ some name) (hl : p.Lands name) :
    p.step (.showstream name) = some (p.enter name) := by
  rw [step_showstream h, if_pos hl]
  rfl

/-- The page stands where the router has left it. -/
theorem path_step {p q : Page} {name : String} (h : p.state ≠ some name)
    (hq : p.step (.showstream name) = some q) :
    goStream p.path name = some (q.path, q.state) := by
  rw [step_showstream h] at hq
  obtain rfl := Option.some.inj hq
  rw [goStream_path h]
  split_ifs <;> rfl

/-- What a step does to the page. -/
inductive Moves (p : Page) : PageEvent → Page → Prop
  | stay {name : String} (hs : p.state = some name) : Moves p (.showstream name) p
  | enter {name : String} (hs : p.state ≠ some name) :
      Moves p (.showstream name)
        ((p.enter name).settle (if p.Lands name then some name else none))
  | close : Moves p .closestream (p.settle none)
  | tick {name : String} (ht : p.timers ≠ 0) (hn : p.activestream = some name) :
      Moves p .tick { p with inflight := name :: p.inflight }
  | answer {name : String} {streams : List Stream} {record : Option Stream}
      (hm : name ∈ p.inflight) (hf : findStream name streams = some record) :
      Moves p (.answer name streams)
        { p with activestreamer := some record, inflight := p.inflight.erase name }
  | failure {name : String} (hm : name ∈ p.inflight) :
      Moves p (.failure name) { p with inflight := p.inflight.erase name }

theorem step_cases {p q : Page} {e : PageEvent} (h : p.step e = some q) : p.Moves e q := by
  cases e with
  | showstream name =>
    by_cases hs : p.state = some name
    · rw [step, if_pos hs] at h
      obtain rfl := Option.some.inj h
      exact .stay hs
    · rw [step_showstream hs] at h
      obtain rfl := Option.some.inj h
      exact .enter hs
  | closestream =>
    obtain rfl := Option.some.inj h
    exact .close
  | tick =>
    simp only [step] at h
    split at h
    · rename_i name ht hn
      obtain rfl := Option.some.inj h
      exact .tick (by simp [ht]) hn
    · cases h
  | answer name streams =>
    simp only [step, Option.ite_none_right_eq_some] at h
    obtain ⟨hm, h⟩ := h
    split at h
    · rename_i record hf
      obtain rfl := Option.some.inj h
      exact .answer hm hf
    · cases h
  | failure name =>
    simp only [step, Option.ite_none_right_eq_some] at h
    obtain ⟨hm, h⟩ := h
    obtain rfl := Option.some.inj h
    exact .failure hm

/-! ### Coherence -/

/-- Requests in flight are for the stream that the page shows. -/
structure Coherent (p : Page) : Prop where
  asked : ∀ name ∈ p.inflight, p.state = some name
  shown : ∀ name, p.state = some name → p.activestream = some name

theorem coherent_start : Coherent start := by
  constructor
  · intro name hn
    cases hn
  · intro name hn
    cases hn

theorem coherent_step {p q : Page} {e : PageEvent} (h : p.Coherent) (hok : p.Unhurried e)
    (hq : p.step e = some q) : q.Coherent := by
  cases step_cases hq with
  | stay hs => exact h
  | @enter name hs =>
    obtain ⟨hlands, hasked⟩ := hok.resolve_left hs
    rw [if_pos hlands]
    constructor
    · intro asked ha
      rcases List.mem_cons.mp ha with rfl | ha
      · rfl
      · rw [hasked asked ha]
        rfl
    · intro n hn
      exact hn
  | close =>
    have hnone : (p.settle none).inflight = [] := hok
    constructor
    · intro asked ha
      rw [hnone] at ha
      cases ha
    · intro n hn
      cases hn
  | tick ht hn =>
    obtain ⟨n, hs⟩ := Option.ne_none_iff_exists'.mp hok
    obtain rfl := Option.some.inj (hn.symm.trans (h.shown n hs))
    constructor
    · intro asked ha
      rcases List.mem_cons.mp ha with rfl | ha
      · exact hs
      · exact h.asked asked ha
    · intro m hm
      exact h.shown m hm
  | answer hm hf => exact ⟨fun n hn => h.asked n (List.mem_of_mem_erase hn), h.shown⟩
  | failure hm => exact ⟨fun n hn => h.asked n (List.mem_of_mem_erase hn), h.shown⟩

end Page

theorem name_of_findStream {name : String} {streams : List Stream} {x : Stream}
    (h : findStream name streams = some (some x)) :
    x ∈ streams ∧ ∃ c, x.channel = .val c ∧ c.name = name := by
  induction streams with
  | nil => simp [findStream] at h
  | cons y ys ih =>
    cases hy : y.channel with
    | undefined => simp [findStream, hy] at h
    | null => simp [findStream, hy] at h
    | val c =>
      by_cases hc : c.name = name
      · simp only [findStream, hy, if_pos hc, Option.some.injEq] at h
        subst h
        exact ⟨List.mem_cons_self, c, hy, hc⟩
      · simp only [findStream, hy, if_neg hc] at h
        obtain ⟨hm, hx⟩ := ih h
        exact ⟨List.mem_cons_of_mem _ hm, hx⟩

/-- The page after an answer describes the stream it shows. -/
def Page.Describes (p : Page) (name : String) : Prop :=
  p.state = some name ∧ p.activestream = some name ∧
    ∃ record, p.activestreamer = some record ∧
      ∀ x, record = some x → ∃ c, x.channel = .val c ∧ c.name = name

/-- In an unhurried run every answer is installed under the stream it was asked for. -/
theorem unhurried_answer_describes {p q : Page}
    (h : Runs.Guarded Page.step Page.Unhurried .start p) {name : String} {streams : List Stream}
    (hq : p.step (.answer name streams) = some q) : q.Describes name := by
  have hc : p.Coherent := Runs.Guarded.invariant Page.coherent_start
    (fun _ _ _ hi hok hq => Page.coherent_step hi hok hq) h
  cases Page.step_cases hq with
  | answer hm hf =>
    have hs := hc.asked name hm
    refine ⟨hs, hc.shown name hs, _, rfl, ?_⟩
    rintro x rfl
    exact (name_of_findStream hf).2

theorem unhurried_answer_describes_dyrus :
    Page.Describes
      { Page.enter .start "dyrus" with
        activestreamer := some (some (sampleStream "dyrus" "Ahri" "Ahri")), inflight := [] }
      "dyrus" := by
  have hanswer : Page.step (Page.enter .start "dyrus")
      (.answer "dyrus" [sampleStream "dyrus" "Ahri" "Ahri"]) =
      some { Page.enter .start "dyrus" with
        activestreamer := some (some (sampleStream "dyrus" "Ahri" "Ahri")), inflight := [] } := rfl
  have henter : Page.step .start (.showstream "dyrus") = some (Page.enter .start "dyrus") :=
    Page.step_enter (by decide) (by decide)
  refine unhurried_answer_describes ?_ hanswer
  exact .tail (e := .showstream "dyrus") .refl (.inr ⟨by decide, by simp [Page.start]⟩) henter

/-- The condition leaves nothing out: any other step leaves a request in flight whose answer,
if it comes next, is installed under a different stream or in the home state. -/
theorem hurried_answer_misdescribes {p q : Page}
    (h : Runs.Guarded Page.step Page.Unhurried .start p) {e : PageEvent} (hok : ¬ p.Unhurried e)
    (hq : p.step e = some q) :
    ∃ name r, q.step (.answer name []) = some r ∧ r.state ≠ some name := by
  have hc : p.Coherent := Runs.Guarded.invariant Page.coherent_start
    (fun _ _ _ hi hok hq => Page.coherent_step hi hok hq) h
  suffices hs : ∃ name ∈ q.inflight, q.state ≠ some name by
    obtain ⟨name, hm, hs⟩ := hs
    have hanswer : q.step (.answer name []) =
        some { q with activestreamer := some none, inflight := q.inflight.erase name } := by
      simp [Page.step, hm, findStream]
    exact ⟨name, _, hanswer, hs⟩
  cases Page.step_cases hq with
  | stay hs => exact absurd (.inl hs) hok
  | @enter name hs =>
    by_cases hlands : p.Lands name
    · obtain ⟨asked, ha, hne⟩ : ∃ asked ∈ p.inflight, asked ≠ name := by
        by_contra hall
        push Not at hall
        exact hok (.inr ⟨hlands, hall⟩)
      have hother : some name ≠ some asked := by simpa using hne.symm
      rw [if_pos hlands]
      exact ⟨asked, List.mem_cons_of_mem _ ha, hother⟩
    · have hother : (none : Option String) ≠ some name := by simp
      rw [if_neg hlands]
      exact ⟨name, List.mem_cons_self, hother⟩
  | close =>
    obtain ⟨asked, ha⟩ := List.exists_mem_of_ne_nil p.inflight hok
    have hother : (none : Option String) ≠ some asked := by simp
    exact ⟨asked, ha, hother⟩
  | tick ht hn =>
    have hs : p.state = none := by simpa [Page.Unhurried] using hok
    exact ⟨_, List.mem_cons_self, by simp [hs]⟩
  | answer hm hf => exact absurd trivial hok
  | failure hm => exact absurd trivial hok

/-- Switching channels before the first answer: it is installed under the second channel. -/
theorem overtaken_answer_installed :
    ¬ ∀ p q, Runs.Reaches Page.step .start p → ∀ name streams,
      p.step (.answer name streams) = some q → q.Describes name := by
  intro h
  have hrun : Runs.run Page.step .start [.showstream "dyrus", .showstream "imaqtpie"] =
      some ((Page.enter .start "dyrus").enter "imaqtpie") := by
    rw [Runs.run_cons]
    refine ⟨_, Page.step_enter (by decide) (by decide), ?_⟩
    rw [Runs.run_cons]
    exact ⟨_, Page.step_enter (by decide) (by decide), rfl⟩
  have hd := h _ _ (Runs.reaches_of_run hrun) "dyrus" [sampleStream "dyrus" "Ahri" "Ahri"] rfl
  exact absurd hd.1 (by decide)

end LolStreams
