import LolStreams.Routes

/-! Which of the routes a request can match. Two patterns that match one path have a common
instance, and among the routes there is a single pair of patterns with one. -/
namespace LolStreams

/-! ### Common instances -/

/-- A named segment takes it. -/
def Fits (x : String) : Prop := x ≠ "" ∧ '?' ∉ x.toList ∧ '#' ∉ x.toList

instance (x : String) : Decidable (Fits x) :=
  inferInstanceAs (Decidable (x ≠ "" ∧ '?' ∉ x.toList ∧ '#' ∉ x.toList))

namespace Segment

def Takes : Segment → String → Prop
  | literal s, x => x = s
  | name, x => Fits x

def unify : Segment → Segment → Option Segment
  | literal s, literal t => if s = t then some (literal s) else none
  | literal s, name => if Fits s then some (literal s) else none
  | name, literal t => if Fits t then some (literal t) else none
  | name, name => some name

theorem takes_unify {s t : Segment} {x : String} (hs : s.Takes x) (ht : t.Takes x) :
    ∃ u, s.unify t = some u ∧ u.Takes x := by
  cases s with
  | literal a =>
    cases hs
    cases t with
    | literal b =>
      cases ht
      exact ⟨literal x, if_pos rfl, rfl⟩
    | name => exact ⟨literal x, if_pos ht, rfl⟩
  | name =>
    cases t with
    | literal b =>
      cases ht
      exact ⟨literal x, if_pos hs, rfl⟩
    | name => exact ⟨name, rfl, hs⟩

end Segment

/-- The common instances of two patterns. -/
def unifyPatterns : List Segment → List Segment → Option (List Segment)
  | [], [] => some []
  | s :: p, t :: q => do
    let u ← s.unify t
    let r ← unifyPatterns p q
    some (u :: r)
  | _, _ => none

theorem takes_unifyPatterns {p q : List Segment} {path : List String}
    (hp : List.Forall₂ Segment.Takes p path) (hq : List.Forall₂ Segment.Takes q path) :
    ∃ u, unifyPatterns p q = some u ∧ List.Forall₂ Segment.Takes u path := by
  induction hp generalizing q with
  | nil =>
    cases hq
    exact ⟨[], rfl, .nil⟩
  | cons hs _ ih =>
    cases hq with
    | cons ht hq =>
      obtain ⟨u, hu, hx⟩ := Segment.takes_unify hs ht
      obtain ⟨r, hr, hrest⟩ := ih hq
      refine ⟨u :: r, ?_, .cons hx hrest⟩
      simp [unifyPatterns, hu, hr]

theorem takes_of_matchPattern {p : List Segment} {path : List String} {name : Option String}
    (h : matchPattern p path = some name) : List.Forall₂ Segment.Takes p path := by
  fun_induction matchPattern p path generalizing name with
  | case1 => exact .nil
  | case2 p x path ih => exact .cons rfl (ih h)
  | case3 s p x path hx => cases h
  | case4 p x path hx ih =>
    obtain ⟨rest, hrest, _⟩ := Option.map_eq_some_iff.mp h
    exact .cons hx (ih hrest)
  | case5 p x path hx => cases h
  | case6 => cases h

/-! ### The routes -/

/-- The patterns of a route, with the final slash and without. -/
def Route.patterns (route : Route) : List (List Segment) :=
  if route.slash then [route.pattern, route.pattern ++ [.literal ""]] else [route.pattern]

theorem takes_of_captures {route : Route} {verb : String} {path : List String}
    (h : (route.captures verb path).isSome) :
    route.verb = verb ∧ ∃ p ∈ route.patterns, List.Forall₂ Segment.Takes p path := by
  by_cases hverb : route.verb = verb
  · refine ⟨hverb, ?_⟩
    rw [Route.captures, if_pos hverb] at h
    cases hm : matchPattern route.pattern path with
    | some name =>
      refine ⟨route.pattern, ?_, takes_of_matchPattern hm⟩
      unfold Route.patterns
      split_ifs <;> simp
    | none =>
      simp only [hm] at h
      by_cases hslash : route.slash ∧ path.getLast? = some ""
      · rw [if_pos hslash] at h
        obtain ⟨name, hm⟩ := Option.isSome_iff_exists.mp h
        refine ⟨route.pattern ++ [.literal ""], by simp [Route.patterns, hslash.1], ?_⟩
        rw [← List.dropLast_append_getLast? "" hslash.2]
        exact List.rel_append (takes_of_matchPattern hm) (.cons rfl .nil)
      · rw [if_neg hslash] at h
        cases h
  · rw [Route.captures, if_neg hverb] at h
    cases h

/-- Apart from one path two routes have nothing in common. -/
theorem common_instances : ∀ r₁ ∈ routes, ∀ r₂ ∈ routes, r₁.verb = r₂.verb → r₁ ≠ r₂ →
    ∀ p₁ ∈ r₁.patterns, ∀ p₂ ∈ r₂.patterns, unifyPatterns p₁ p₂ = none ∨
      unifyPatterns p₁ p₂ = some [.literal "streams", .literal "bleh"] ∧
        (r₁.verb = "GET" ∨ r₁.verb = "HEAD") := by
  decide +kernel

/-- The path of the edit page of a streamer named like the list of streams. -/
def Shadowed (verb : String) (path : List String) : Prop :=
  path = ["streams", "bleh"] ∧ (verb = "GET" ∨ verb = "HEAD")

theorem eq_or_shadowed {r₁ r₂ : Route} (h₁ : r₁ ∈ routes) (h₂ : r₂ ∈ routes) {verb : String}
    {path : List String} (hc₁ : (r₁.captures verb path).isSome)
    (hc₂ : (r₂.captures verb path).isSome) : r₁ = r₂ ∨ Shadowed verb path := by
  obtain ⟨hv₁, p₁, hp₁, ht₁⟩ := takes_of_captures hc₁
  obtain ⟨hv₂, p₂, hp₂, ht₂⟩ := takes_of_captures hc₂
  obtain ⟨u, hu, hpath⟩ := takes_unifyPatterns ht₁ ht₂
  by_cases he : r₁ = r₂
  · exact .inl he
  · right
    rcases common_instances r₁ h₁ r₂ h₂ (hv₁.trans hv₂.symm) he p₁ hp₁ p₂ hp₂ with hnone | ⟨hsome, hverb⟩
    · rw [hu] at hnone
      cases hnone
    · rw [hu, Option.some.injEq] at hsome
      subst hsome
      rw [hv₁] at hverb
      cases hpath with
      | cons hx hrest =>
        cases hrest with
        | cons hy hnil =>
          cases hnil
          cases hx
          cases hy
          exact ⟨rfl, hverb⟩

/-! ### The order of the routes -/

/-- Where at most one element answers, the first answer is the answer of any that does. -/
theorem findSome_eq_some_iff {α β : Type} {f : α → Option β} {l : List α}
    (h : ∀ a ∈ l, ∀ b ∈ l, (f a).isSome → (f b).isSome → a = b) {c : β} :
    l.findSome? f = some c ↔ ∃ a ∈ l, f a = some c := by
  constructor
  · exact List.exists_of_findSome?_eq_some
  · rintro ⟨a, ha, hc⟩
    cases hfound : l.findSome? f with
    | none =>
      rw [List.findSome?_eq_none_iff.mp hfound a ha] at hc
      cases hc
    | some d =>
      obtain ⟨b, hb, hd⟩ := List.exists_of_findSome?_eq_some hfound
      have hab : a = b := h a ha b hb (by rw [hc]; rfl) (by rw [hd]; rfl)
      rw [← hd, ← hab, hc]

theorem findSome_perm {α β : Type} {f : α → Option β} {l l' : List α}
    (h : ∀ a ∈ l, ∀ b ∈ l, (f a).isSome → (f b).isSome → a = b) (hp : l'.Perm l) :
    l'.findSome? f = l.findSome? f := by
  have h' : ∀ a ∈ l', ∀ b ∈ l', (f a).isSome → (f b).isSome → a = b := by
    intro a ha b hb
    exact h a (hp.mem_iff.mp ha) b (hp.mem_iff.mp hb)
  ext c
  rw [findSome_eq_some_iff h, findSome_eq_some_iff h']
  simp only [hp.mem_iff]

def Route.answer (verb : String) (path : List String) (route : Route) :
    Option (Handler × Option String) :=
  (route.captures verb path).map fun name => (route.handler, name)

/-- `dispatch` for any list of routes. -/
def dispatchIn (rs : List Route) (verb : String) (path : List String) :
    Option (Handler × Option String) :=
  rs.findSome? (Route.answer verb path)

theorem one_route {verb : String} {path : List String} (h : ¬ Shadowed verb path) :
    ∀ r₁ ∈ routes, ∀ r₂ ∈ routes, (r₁.answer verb path).isSome →
      (r₂.answer verb path).isSome → r₁ = r₂ := by
  intro r₁ h₁ r₂ h₂ hc₁ hc₂
  rw [Route.answer, Option.isSome_map] at hc₁ hc₂
  exact (eq_or_shadowed h₁ h₂ hc₁ hc₂).resolve_right h

/-- The routes may be defined in any order, as far as a request goes, exactly when it is not
for the edit page of a streamer called `streams`. -/
theorem route_order_irrelevant_iff (verb : String) (path : List String) :
    (∀ rs : List Route, rs.Perm routes → dispatchIn rs verb path = dispatch verb path) ↔
      ¬ Shadowed verb path := by
  constructor
  · rintro h ⟨rfl, hverb⟩
    have hreverse := h routes.reverse (List.reverse_perm routes)
    rcases hverb with rfl | rfl
    · exact absurd hreverse (by decide +kernel)
    · exact absurd hreverse (by decide +kernel)
  · intro h rs hp
    exact findSome_perm (one_route h) hp

theorem dispatch_of_mem {verb : String} {path : List String} (h : ¬ Shadowed verb path)
    (route : Route) (hr : route ∈ routes) {name : Option String}
    (hc : route.captures verb path = some name) :
    dispatch verb path = some (route.handler, name) := by
  have hanswer : route.answer verb path = some (route.handler, name) := by
    rw [Route.answer, hc]
    rfl
  exact (findSome_eq_some_iff (one_route h)).mpr ⟨route, hr, hanswer⟩

/-! ### The edit page -/

theorem captures_name_bleh {route : Route} (hp : route.pattern = [.name, .literal "bleh"])
    {name : String} (hfits : Fits name) :
    route.captures route.verb [name, "bleh"] = some (some name) := by
  have hm : matchPattern route.pattern [name, "bleh"] = some (some name) := by
    have htakes : name ≠ "" ∧ '?' ∉ name.toList ∧ '#' ∉ name.toList := hfits
    rw [hp, matchPattern, if_pos htakes]
    rfl
  rw [Route.captures, if_pos rfl, hm]

/-- A streamer can be edited under a name that fits, and called up unless it is `streams`. -/
theorem dispatch_showBleh {name : String} (hfits : Fits name) (hne : name ≠ "streams") :
    dispatch "GET" [name, "bleh"] = some (.showBleh, some name) := by
  have hshadow : ¬ Shadowed "GET" [name, "bleh"] := by
    rintro ⟨h, _⟩
    exact hne (List.cons.inj h).1
  exact dispatch_of_mem hshadow ⟨"GET", [.name, .literal "bleh"], false, .showBleh⟩
    (by decide) (captures_name_bleh rfl hfits)

theorem dispatch_putBleh_of_fits {name : String} (hfits : Fits name) :
    dispatch "PUT" [name, "bleh"] = some (.putBleh, some name) := by
  have hshadow : ¬ Shadowed "PUT" [name, "bleh"] := by
    rintro ⟨_, h | h⟩
    · exact absurd h (by decide)
    · exact absurd h (by decide)
  exact dispatch_of_mem hshadow ⟨"PUT", [.name, .literal "bleh"], false, .putBleh⟩
    (by decide) (captures_name_bleh rfl hfits)

end LolStreams
