import Mathlib

/-! Filters one after the other, whose predicates may throw. A filter looks at every element
that the filters before it have left, and stops at the first on which its predicate throws. -/
namespace FilterChain

variable {α β ε : Type*}

def filter (p : α → Except ε Bool) : List α → Except ε (List α)
  | [] => .ok []
  | a :: l =>
    match p a with
    | .error e => .error e
    | .ok b => (filter p l).map fun kept => if b then a :: kept else kept

def chain (check : β → α → Except ε Bool) : List β → List α → Except ε (List α)
  | [], l => .ok l
  | b :: bs, l => (filter (check b) l).bind (chain check bs)

/-- The predicate returns true. -/
def passes (r : Except ε Bool) : Bool :=
  match r with
  | .ok b => b
  | .error _ => false

/-- The element gets past every predicate, or is turned down before one throws. -/
def Settled (check : β → α → Except ε Bool) : List β → α → Prop
  | [], _ => True
  | b :: bs, a => check b a = .ok false ∨ (check b a = .ok true ∧ Settled check bs a)

theorem filter_eq_ok_iff {p : α → Except ε Bool} {l kept : List α} :
    filter p l = .ok kept ↔ (∀ a ∈ l, ∃ b, p a = .ok b) ∧ kept = l.filter fun a => passes (p a) := by
  induction l generalizing kept with
  | nil => simp [filter, eq_comm]
  | cons a l ih =>
    rw [filter, List.forall_mem_cons]
    cases ha : p a with
    | error e => simp
    | ok b =>
      have hkept : (a :: l).filter (fun a => passes (p a)) =
          if b then a :: l.filter (fun a => passes (p a)) else l.filter fun a => passes (p a) := by
        rw [List.filter_cons, ha]
        rfl
      have hmap : (filter p l).map (fun rest => if b then a :: rest else rest) = .ok kept ↔
          ∃ rest, filter p l = .ok rest ∧ (if b then a :: rest else rest) = kept := by
        cases filter p l <;> simp [Except.map]
      rw [hkept, hmap]
      simp only [ih]
      constructor
      · rintro ⟨_, ⟨hall, rfl⟩, rfl⟩
        exact ⟨⟨⟨b, rfl⟩, hall⟩, rfl⟩
      · rintro ⟨⟨_, hall⟩, rfl⟩
        exact ⟨_, ⟨hall, rfl⟩, rfl⟩

/-- A chain runs through if every element is settled, and then leaves what passes everywhere. -/
theorem chain_eq_ok_iff {check : β → α → Except ε Bool} {bs : List β} {l kept : List α} :
    chain check bs l = .ok kept ↔ (∀ a ∈ l, Settled check bs a) ∧
      kept = l.filter fun a => bs.all fun b => passes (check b a) := by
  induction bs generalizing l with
  | nil => simp [chain, Settled, eq_comm]
  | cons b bs ih =>
    have hfirst : chain check (b :: bs) l = .ok kept ↔
        ∃ m, filter (check b) l = .ok m ∧ chain check bs m = .ok kept := by
      rw [chain]
      cases filter (check b) l <;> simp [Except.bind]
    have hsettled : ∀ a, Settled check (b :: bs) a ↔
        (∃ c, check b a = .ok c) ∧ (passes (check b a) = true → Settled check bs a) := by
      intro a
      rw [Settled]
      cases check b a with
      | error e => simp
      | ok c => cases c <;> simp [passes]
    rw [hfirst]
    simp only [filter_eq_ok_iff, ih, hsettled, List.all_cons]
    constructor
    · rintro ⟨m, ⟨hread, rfl⟩, hrest, rfl⟩
      refine ⟨fun a ha => ⟨hread a ha, fun hp => hrest a ?_⟩, ?_⟩
      · exact List.mem_filter.mpr ⟨ha, hp⟩
      · rw [List.filter_filter]
        apply List.filter_congr
        intro a _
        rw [Bool.and_comm]
    · rintro ⟨hall, rfl⟩
      refine ⟨_, ⟨fun a ha => (hall a ha).1, rfl⟩, ?_, ?_⟩
      · intro a ha
        obtain ⟨hm, hp⟩ := List.mem_filter.mp ha
        exact (hall a hm).2 hp
      · rw [List.filter_filter]
        apply List.filter_congr
        intro a _
        rw [Bool.and_comm]

/-- Before each predicate that throws there is one that turns the element down. -/
theorem settled_iff {check : β → α → Except ε Bool} {bs : List β} {a : α} :
    Settled check bs a ↔ ∀ before b after, bs = before ++ b :: after →
      (∃ e, check b a = .error e) → ∃ c ∈ before, check c a = .ok false := by
  induction bs with
  | nil => simp [Settled]
  | cons d bs ih =>
    rw [Settled, ih]
    constructor
    · rintro (hd | ⟨hd, hrest⟩) before b after hsplit ⟨e, he⟩
      · cases before with
        | nil =>
          obtain ⟨rfl, -⟩ := List.cons.inj hsplit
          simp [hd] at he
        | cons c before =>
          obtain ⟨rfl, -⟩ := List.cons.inj hsplit
          exact ⟨d, List.mem_cons_self, hd⟩
      · cases before with
        | nil =>
          obtain ⟨rfl, -⟩ := List.cons.inj hsplit
          simp [hd] at he
        | cons c before =>
          obtain ⟨rfl, htail⟩ := List.cons.inj hsplit
          obtain ⟨c, hc, hfalse⟩ := hrest before b after htail ⟨e, he⟩
          exact ⟨c, List.mem_cons_of_mem d hc, hfalse⟩
    · intro h
      cases hd : check d a with
      | error e =>
        obtain ⟨c, hc, -⟩ := h [] d bs rfl ⟨e, hd⟩
        cases hc
      | ok b =>
        cases b with
        | false => exact .inl rfl
        | true =>
          right
          refine ⟨rfl, fun before b after hsplit herror => ?_⟩
          obtain ⟨c, hc, hfalse⟩ := h (d :: before) b after (congrArg (List.cons d) hsplit) herror
          rcases List.mem_cons.mp hc with rfl | hc
          · simp [hd] at hfalse
          · exact ⟨c, hc, hfalse⟩

/-- A chain that runs through a list runs through what is left of it. -/
theorem chain_sublist {check : β → α → Except ε Bool} {bs : List β} {l l' kept : List α}
    (h : l'.Sublist l) (hl : chain check bs l = .ok kept) :
    ∃ kept', chain check bs l' = .ok kept' ∧ kept'.Sublist kept := by
  obtain ⟨hall, rfl⟩ := chain_eq_ok_iff.mp hl
  refine ⟨_, chain_eq_ok_iff.mpr ⟨fun a ha => hall a (h.subset ha), rfl⟩, h.filter _⟩

/-- In whatever order the predicates stand, the chains that run through leave the same. -/
theorem chain_perm {check : β → α → Except ε Bool} {bs bs' : List β} (h : bs'.Perm bs)
    {l kept : List α} (hl : chain check bs' l = .ok kept) :
    kept = l.filter fun a => bs.all fun b => passes (check b a) := by
  obtain ⟨-, rfl⟩ := chain_eq_ok_iff.mp hl
  apply List.filter_congr
  intro a _
  exact h.all_eq

end FilterChain
