import LolStreams.ActiveStream

/-! The polling timers of the stream state: each entry starts one, and nothing cancels any. What
they cost is counted in requests. -/
namespace LolStreams

namespace Page

/-- The timers that the state of the page calls for. -/
def wanted (p : Page) : ℕ := if p.state.isSome then 1 else 0

def OnePoller (p : Page) : Prop := p.timers = p.wanted

instance (p : Page) : Decidable p.OnePoller := inferInstanceAs (Decidable (p.timers = p.wanted))

/-- More timers than the page has a use for. -/
def Leaky (p : Page) : Prop := p.wanted < p.timers

/-- The page does not leave a stream state, neither for the home state nor for another, and is
not sent home on its entry into one. -/
def Stays (p : Page) : PageEvent → Prop
  | .showstream name => p.state = some name ∨ (p.state = none ∧ p.Lands name)
  | .closestream => p.state = none
  | _ => True

theorem wanted_none {p : Page} (h : p.state = none) : p.wanted = 0 := by
  simp [wanted, h]

theorem wanted_some {p : Page} {name : String} (h : p.state = some name) : p.wanted = 1 := by
  simp [wanted, h]

theorem wanted_le_one (p : Page) : p.wanted ≤ 1 := by
  unfold wanted
  split_ifs <;> omega

theorem onePoller_step {p : Page} {e : PageEvent} {q : Page} (hp : p.OnePoller)
    (hok : p.Stays e) (h : p.step e = some q) : q.OnePoller := by
  cases step_cases h with
  | @enter name hs =>
    obtain ⟨hnone, hlands⟩ := hok.resolve_left hs
    unfold OnePoller at hp ⊢
    rw [wanted_none hnone] at hp
    rw [if_pos hlands, timers_settle, timers_enter, wanted_some rfl]
    omega
  | close =>
    have hnone : p.state = none := hok
    unfold OnePoller at hp ⊢
    rwa [timers_settle, wanted_none rfl, ← wanted_none hnone]
  | stay | tick | answer | failure => exact hp

/-- Leaving a stream state leaves its timer behind, and so does an entry that ends at home. -/
theorem leaky_of_departure {p : Page} {e : PageEvent} {q : Page} (hp : p.OnePoller)
    (hok : ¬ p.Stays e) (h : p.step e = some q) : q.Leaky := by
  unfold OnePoller at hp
  unfold Leaky
  cases step_cases h with
  | @enter name hs =>
    obtain ⟨-, hok⟩ := not_or.mp hok
    rw [timers_settle, timers_enter]
    cases hstate : p.state with
    | none =>
      have hlost : ¬ p.Lands name := fun hl => hok ⟨hstate, hl⟩
      rw [if_neg hlost, wanted_none rfl]
      omega
    | some other =>
      have hle := wanted_le_one ((p.enter name).settle (if p.Lands name then some name else none))
      rw [wanted_some hstate] at hp
      omega
  | close =>
    obtain ⟨name, hn⟩ := Option.ne_none_iff_exists'.mp hok
    rw [wanted_some hn] at hp
    rw [timers_settle, wanted_none rfl]
    omega
  | stay hs => exact absurd (.inl hs) hok
  | tick | answer | failure => exact absurd trivial hok

theorem leaky_step {p : Page} {e : PageEvent} {q : Page} (hp : p.Leaky)
    (h : p.step e = some q) : q.Leaky := by
  unfold Leaky at hp ⊢
  cases step_cases h with
  | @enter name hs =>
    have hle := wanted_le_one ((p.enter name).settle (if p.Lands name then some name else none))
    rw [timers_settle, timers_enter]
    omega
  | close =>
    rw [timers_settle, wanted_none rfl]
    omega
  | stay | tick | answer | failure => exact hp

end Page

/-- In every run there is one timer in a stream state and none in the home state exactly as
long as the page has not left a stream state. -/
theorem one_poller_iff {es : List PageEvent} {p : Page}
    (h : Runs.run Page.step .start es = some p) :
    p.OnePoller ↔ Runs.Throughout Page.step Page.Stays .start es := by
  refine Runs.throughout_iff (B := Page.Leaky) ?_ ?_ ?_ ?_ rfl h
  · intro s e t hs hok ht
    exact Page.onePoller_step hs hok ht
  · intro s e t hs hok ht
    exact Page.leaky_of_departure hs hok ht
  · intro s e t hs ht
    exact Page.leaky_step hs ht
  · intro s hleak hone
    unfold Page.Leaky at hleak
    unfold Page.OnePoller at hone
    omega

theorem one_poller_dyrus : (Page.enter .start "dyrus").OnePoller := by
  have hrun : Runs.run Page.step .start [.showstream "dyrus"] =
      some (Page.enter .start "dyrus") := by
    rw [Runs.run_cons]
    exact ⟨_, Page.step_enter (by decide) (by decide), rfl⟩
  refine (one_poller_iff hrun).mpr ?_
  exact ⟨.inr ⟨rfl, by decide⟩, fun _ _ => trivial⟩

/-- Back in the home state, the timer of the stream goes on. -/
theorem timer_survives_closestream :
    ¬ ∀ es p, Runs.run Page.step .start es = some p → p.OnePoller := by
  intro h
  have hrun : Runs.run Page.step .start [.showstream "dyrus", .closestream] =
      some ((Page.enter .start "dyrus").settle none) := by
    rw [Runs.run_cons]
    exact ⟨_, Page.step_enter (by decide) (by decide), rfl⟩
  exact absurd (h _ _ hrun) (by decide)

/-! ### The requests of the stream state -/

def PageEvent.fires : PageEvent → Bool
  | tick => true
  | _ => false

def PageEvent.closes : PageEvent → Bool
  | answer _ _ => true
  | failure _ => true
  | _ => false

namespace Page

variable {p q : Page} {e : PageEvent}

/-- The event starts the controller of a stream state. -/
def enters (p : Page) : PageEvent → Bool
  | .showstream name => p.state ≠ some name
  | _ => false

def entries (p : Page) (es : List PageEvent) : ℕ :=
  Runs.total step (fun t e => if t.enters e then 1 else 0) p es

/-- A page with a timer has something for it to ask for. -/
def Armed (p : Page) : Prop := p.timers ≠ 0 → p.activestream.isSome

theorem timers_step (h : p.step e = some q) :
    q.timers = p.timers + if p.enters e then 1 else 0 := by
  cases step_cases h with
  | stay hs => simp [enters, hs]
  | enter hs => simp [enters, enter, hs]
  | close | tick | answer | failure => simp [enters]

theorem inflight_step (h : p.step e = some q) :
    q.inflight.length + (if e.closes then 1 else 0) =
      p.inflight.length + ((if p.enters e then 1 else 0) + if e.fires then 1 else 0) := by
  cases step_cases h with
  | stay hs => simp [enters, hs, PageEvent.closes, PageEvent.fires]
  | enter hs => simp [enters, enter, hs, PageEvent.closes, PageEvent.fires]
  | close | tick => simp [enters, PageEvent.closes, PageEvent.fires]
  | answer hm | failure hm =>
    have hlength := List.length_erase_add_one hm
    simp [enters, PageEvent.closes, PageEvent.fires, hlength]

theorem armed_step (hp : p.Armed) (h : p.step e = some q) : q.Armed := by
  cases step_cases h with
  | enter hs => exact fun _ => rfl
  | stay | close | tick | answer | failure => exact hp

/-- Each firing of a timer asks once more for the stream last entered. -/
theorem run_ticks {name : String} (ht : p.timers ≠ 0) (hname : p.activestream = some name)
    (n : ℕ) : Runs.run step p (List.replicate n .tick) =
      some { p with inflight := List.replicate n name ++ p.inflight } := by
  induction n generalizing p with
  | zero => rfl
  | succ n ih =>
    obtain ⟨t, ht'⟩ := Nat.exists_eq_succ_of_ne_zero ht
    have hstep : p.step .tick = some { p with inflight := name :: p.inflight } := by
      simp only [step, ht', hname]
    have hrest := ih (p := { p with inflight := name :: p.inflight }) ht hname
    rw [List.replicate_succ, Runs.run_cons]
    refine ⟨_, hstep, hrest.trans ?_⟩
    simp only [List.replicate_succ', List.append_assoc, List.singleton_append]

end Page

/-- In every run the page has a timer for each entry into a stream state, every request comes
from an entry or a timer and is in flight or answered, and while all timers fire once the page
asks as often for the stream last entered as it has entered one, in the home state too. -/
theorem polling_cost {es : List PageEvent} {p : Page}
    (h : Runs.run Page.step .start es = some p) :
    p.timers = Page.start.entries es ∧
      p.inflight.length + es.countP PageEvent.closes =
        Page.start.entries es + es.countP PageEvent.fires ∧
      ∃ asked : List String, asked.length = Page.start.entries es ∧
        (∀ name ∈ asked, p.activestream = some name) ∧
        Runs.run Page.step p (List.replicate p.timers .tick) =
          some { p with inflight := asked ++ p.inflight } := by
  have htimers : p.timers = 0 + Page.start.entries es :=
    Runs.run_gain (fun _ _ _ ht => Page.timers_step ht) h
  have hinflight := Runs.run_balance (fun _ _ _ ht => Page.inflight_step ht) h
  rw [Runs.total_eq_countP _ h, Runs.total_add, Runs.total_eq_countP _ h] at hinflight
  have harmed : p.Armed := by
    refine (Runs.reaches_of_run h).invariant ?_ fun _ _ _ hp ht => Page.armed_step hp ht
    exact fun hne => absurd rfl hne
  rw [Nat.zero_add] at htimers
  have hbalance : p.inflight.length + es.countP PageEvent.closes =
      Page.start.entries es + es.countP PageEvent.fires := by
    simpa [Page.entries, Page.start] using hinflight
  refine ⟨htimers, hbalance, ?_⟩
  by_cases hzero : p.timers = 0
  · have hnone : Page.start.entries es = 0 := htimers.symm.trans hzero
    have hticks : List.replicate p.timers PageEvent.tick = [] := by
      rw [hzero]
      rfl
    refine ⟨[], hnone.symm, by simp, ?_⟩
    rw [hticks]
    rfl
  · obtain ⟨name, hname⟩ := Option.isSome_iff_exists.mp (harmed hzero)
    refine ⟨List.replicate p.timers name, ?_, ?_, Page.run_ticks hzero hname p.timers⟩
    · rw [List.length_replicate, htimers]
    · intro asked hasked
      rw [List.eq_of_mem_replicate hasked]
      exact hname

/-- One stream after another, and back to the home state. -/
def twoStreams : List PageEvent := [.showstream "dyrus", .showstream "tsm", .closestream]

theorem polling_cost_twoStreams :
    ∃ p, Runs.run Page.step .start twoStreams = some p ∧
      p.timers = Page.start.entries twoStreams ∧
      p.inflight.length + twoStreams.countP PageEvent.closes =
        Page.start.entries twoStreams + twoStreams.countP PageEvent.fires ∧
      ∃ asked : List String, asked.length = Page.start.entries twoStreams ∧
        (∀ name ∈ asked, p.activestream = some name) ∧
        Runs.run Page.step p (List.replicate p.timers .tick) =
          some { p with inflight := asked ++ p.inflight } := by
  obtain ⟨p, hp⟩ : ∃ p, Runs.run Page.step .start twoStreams = some p := by
    simp only [twoStreams, Runs.run_cons]
    exact ⟨_, _, Page.step_enter (by decide) (by decide), _,
      Page.step_enter (by decide) (by decide), _, rfl, rfl⟩
  exact ⟨p, hp, polling_cost hp⟩

end LolStreams
