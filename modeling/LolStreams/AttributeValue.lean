import Mathlib

/-! What a browser submits for an input whose `value` attribute was written by putting a text
between double quotes as it is. Only the value itself is followed: what comes after a quote
inside the text is another matter. -/
namespace AttributeValue

/-- Character references: for the text after `&` in a value, what the reference there stands
for and how many of the characters it takes. None is shorter than what it stands for. -/
structure References where
  read : List Char → Option (List Char × ℕ)
  within : ∀ cs rs n, read cs = some (rs, n) → rs.length ≤ n ∧ n ≤ cs.length

def normalizeNewlines : List Char → List Char
  | [] => []
  | '\r' :: '\n' :: cs => '\n' :: normalizeNewlines cs
  | '\r' :: cs => '\n' :: normalizeNewlines cs
  | c :: cs => c :: normalizeNewlines cs

variable (refs : References)

/-- Decode the characters of a value, after skipping those that a reference has taken. -/
def decode : ℕ → List Char → List Char
  | _, [] => []
  | n + 1, _ :: cs => decode n cs
  | 0, c :: cs =>
    if c = '&' then
      match refs.read cs with
      | some (rs, n) => rs ++ decode n cs
      | none => '&' :: decode 0 cs
    else if c = '\x00' then '\ufffd' :: decode 0 cs
    else c :: decode 0 cs

/-- The value that starts at the beginning of the text and ends at the next quote. -/
def attributeValue (page : List Char) : List Char :=
  decode refs 0 (normalizeNewlines (page.takeWhile fun c => c ≠ '"'))

/-- A text input drops the newlines of its value. -/
def stripNewlines (cs : List Char) : List Char := cs.filter fun c => c ≠ '\r' ∧ c ≠ '\n'

/-- The value of `<input value="text">`. -/
def inputValue (text : String) : String :=
  String.ofList (stripNewlines (attributeValue refs (text.toList ++ ['"', '>'])))

/-- No quote, NUL or newline, and no `&` that starts a character reference. -/
def Plain : List Char → Prop
  | [] => True
  | c :: cs => c ≠ '"' ∧ c ≠ '\x00' ∧ c ≠ '\r' ∧ c ≠ '\n' ∧ (c = '&' → refs.read cs = none) ∧
      Plain cs

theorem decode_other {c : Char} (ha : c ≠ '&') (hn : c ≠ '\x00') (cs : List Char) :
    decode refs 0 (c :: cs) = c :: decode refs 0 cs := by
  rw [decode, if_neg ha, if_neg hn]

/-! ### Lengths -/

theorem length_normalizeNewlines (cs : List Char) : (normalizeNewlines cs).length ≤ cs.length := by
  fun_induction normalizeNewlines cs with
  | case1 => simp
  | case2 cs ih =>
    simp only [List.length_cons]
    omega
  | case3 cs _ ih =>
    simp only [List.length_cons]
    omega
  | case4 c cs _ _ ih =>
    simp only [List.length_cons]
    omega

theorem length_decode (n : ℕ) (cs : List Char) : (decode refs n cs).length ≤ cs.length - n := by
  fun_induction decode refs n cs with
  | case1 n => simp
  | case2 n c cs ih =>
    simp only [List.length_cons]
    omega
  | case3 cs rs n hr ih =>
    obtain ⟨h₁, h₂⟩ := refs.within cs rs n hr
    simp only [List.length_append, List.length_cons]
    omega
  | case4 cs hr ih =>
    simp only [List.length_cons]
    omega
  | case5 cs _ ih =>
    simp only [List.length_cons]
    omega
  | case6 c cs _ _ ih =>
    simp only [List.length_cons]
    omega

theorem takeWhile_page (text : List Char) :
    (text ++ ['"', '>']).takeWhile (fun c => c ≠ '"') = text.takeWhile fun c => c ≠ '"' := by
  induction text with
  | nil => simp
  | cons c text ih =>
    by_cases h : c = '"'
    · simp [h]
    · simp only [ne_eq, h, not_false_eq_true, decide_true, List.cons_append,
        List.takeWhile_cons_of_pos, List.cons.injEq, true_and]
      exact ih

/-! ### Plain texts are submitted as they are, and no others -/

section
variable {refs}

theorem plain_of_forall {cs : List Char}
    (h : ∀ c ∈ cs, c ≠ '"' ∧ c ≠ '\x00' ∧ c ≠ '\r' ∧ c ≠ '\n' ∧ c ≠ '&') : Plain refs cs := by
  induction cs with
  | nil => trivial
  | cons c cs ih =>
    obtain ⟨hq, hz, hr, hn, ha⟩ := h c List.mem_cons_self
    refine ⟨hq, hz, hr, hn, fun he => absurd he ha, ih ?_⟩
    exact fun d hd => h d (List.mem_cons_of_mem _ hd)

theorem takeWhile_of_plain {cs : List Char} (h : Plain refs cs) :
    cs.takeWhile (fun c => c ≠ '"') = cs := by
  induction cs with
  | nil => rfl
  | cons c cs ih =>
    obtain ⟨hq, _, _, _, _, hcs⟩ := h
    simpa [hq] using ih hcs

theorem normalizeNewlines_of_plain {cs : List Char} (h : Plain refs cs) :
    normalizeNewlines cs = cs := by
  induction cs with
  | nil => rfl
  | cons c cs ih =>
    obtain ⟨_, _, hr, _, _, hcs⟩ := h
    rw [normalizeNewlines.eq_4 c cs (by simp [hr]) (by simp [hr]), ih hcs]

theorem decode_of_plain {cs : List Char} (h : Plain refs cs) : decode refs 0 cs = cs := by
  induction cs with
  | nil => rfl
  | cons c cs ih =>
    obtain ⟨_, hnul, _, _, href, hcs⟩ := h
    by_cases ha : c = '&'
    · simp [decode, ha, href ha, ih hcs]
    · simp [decode, ha, hnul, ih hcs]

theorem stripNewlines_of_plain {cs : List Char} (h : Plain refs cs) : stripNewlines cs = cs := by
  induction cs with
  | nil => rfl
  | cons c cs ih =>
    obtain ⟨_, _, hr, hn, _, hcs⟩ := h
    simpa [stripNewlines, hr, hn] using ih hcs

theorem attributeValue_of_plain {cs : List Char} (h : Plain refs cs) :
    attributeValue refs (cs ++ ['"', '>']) = cs := by
  rw [attributeValue, takeWhile_page, takeWhile_of_plain h, normalizeNewlines_of_plain h,
    decode_of_plain h]

theorem inputValue_of_plain {text : String} (h : Plain refs text.toList) :
    inputValue refs text = text := by
  rw [inputValue, attributeValue_of_plain h, stripNewlines_of_plain h, String.ofList_toList]

end

/-! What comes back may be worked on further, character by character. -/

section
variable (f : Char → Option Char)

/-- Newlines dropped, and the other characters replaced or dropped by `f`. -/
def finish (cs : List Char) : List Char := (stripNewlines cs).filterMap f

theorem finish_newline (cs : List Char) : finish f ('\n' :: cs) = finish f cs := by
  simp [finish, stripNewlines]

theorem finish_cons {c : Char} (hr : c ≠ '\r') (hn : c ≠ '\n') (cs : List Char) :
    finish f (c :: cs) = (f c).toList ++ finish f cs := by
  cases h : f c <;> simp [finish, stripNewlines, hr, hn, h]

theorem length_finish (cs : List Char) : (finish f cs).length ≤ cs.length := by
  have h₁ := List.length_filterMap_le f (stripNewlines cs)
  have h₂ : (stripNewlines cs).length ≤ cs.length := List.length_filter_le _ _
  simp only [finish]
  omega

/-- The characters that come back for a text. -/
def submitted (cs : List Char) : List Char :=
  finish f (decode refs 0 (normalizeNewlines (cs.takeWhile fun c => c ≠ '"')))

theorem length_submitted (cs : List Char) : (submitted refs f cs).length ≤ cs.length := by
  have h₁ := length_finish f (decode refs 0 (normalizeNewlines (cs.takeWhile fun c => c ≠ '"')))
  have h₂ := length_decode refs 0 (normalizeNewlines (cs.takeWhile fun c => c ≠ '"'))
  have h₃ := length_normalizeNewlines (cs.takeWhile fun c => c ≠ '"')
  have h₄ := (List.takeWhile_sublist (l := cs) fun c => decide (c ≠ '"')).length_le
  simp only [submitted]
  omega

/-- A carriage return is lost, with the line feed after it. -/
theorem length_submitted_return (cs : List Char) :
    (submitted refs f ('\r' :: cs)).length ≤ cs.length := by
  have hcons : ('\r' :: cs).takeWhile (fun c => c ≠ '"') =
      '\r' :: cs.takeWhile fun c => c ≠ '"' := by simp
  have h₄ := (List.takeWhile_sublist (l := cs) fun c => decide (c ≠ '"')).length_le
  obtain ⟨xs, hx, hlen⟩ : ∃ xs, normalizeNewlines ('\r' :: cs.takeWhile fun c => c ≠ '"') =
      '\n' :: xs ∧ xs.length ≤ cs.length := by
    generalize cs.takeWhile (fun c => c ≠ '"') = ds at h₄ ⊢
    by_cases hd : ∃ es, ds = '\n' :: es
    · obtain ⟨es, rfl⟩ := hd
      have h₃ := length_normalizeNewlines es
      simp only [List.length_cons] at h₄
      exact ⟨normalizeNewlines es, rfl, by omega⟩
    · have h₃ := length_normalizeNewlines ds
      refine ⟨normalizeNewlines ds, ?_, by omega⟩
      exact normalizeNewlines.eq_3 ds fun es he => hd ⟨es, he⟩
  have h₁ := length_finish f (decode refs 0 xs)
  have h₂ := length_decode refs 0 xs
  rw [submitted, hcons, hx, decode_other refs (by decide) (by decide), finish_newline]
  omega

end

variable {refs} {f : Char → Option Char}

/-- When the first character stays or goes by itself, it stays and the rest comes back. -/
theorem eq_of_append_eq {c : Char} {o : Option Char} {xs cs : List Char}
    (h : o.toList ++ xs = c :: cs) (hlen : xs.length ≤ cs.length) : o = some c ∧ xs = cs := by
  cases o with
  | none =>
    have hc := congrArg List.length h
    simp only [Option.toList_none, List.nil_append, List.length_cons] at hc
    omega
  | some d =>
    obtain ⟨hd, hx⟩ := List.cons.inj h
    exact ⟨congrArg some hd, hx⟩

/-- A text that comes back after replacing or dropping single characters is plain: whatever
else it had made it shorter, or replaced a NUL. -/
theorem plain_of_submitted (hf : f '\ufffd' ≠ some '\x00') {cs : List Char}
    (h : submitted refs f cs = cs) : Plain refs cs := by
  induction cs with
  | nil => trivial
  | cons c cs ih =>
    have hlen := length_submitted refs f cs
    have hc : (submitted refs f (c :: cs)).length = cs.length + 1 := by rw [h, List.length_cons]
    by_cases hq : c = '"'
    · simp [hq, submitted, normalizeNewlines, decode, finish, stripNewlines] at hc
    by_cases hr : c = '\r'
    · have hle := length_submitted_return refs f cs
      rw [hr] at hc
      omega
    have hcons : (c :: cs).takeWhile (fun c => c ≠ '"') =
        c :: cs.takeWhile fun c => c ≠ '"' := by simp [hq]
    have hnorm : normalizeNewlines (c :: cs.takeWhile fun c => c ≠ '"') =
        c :: normalizeNewlines (cs.takeWhile fun c => c ≠ '"') :=
      normalizeNewlines.eq_4 c _ (by simp [hr]) (by simp [hr])
    rw [submitted, hcons, hnorm] at h hc
    by_cases hn : c = '\n'
    · rw [hn, decode_other refs (by decide) (by decide), finish_newline] at hc
      rw [submitted] at hlen
      omega
    by_cases hz : c = '\x00'
    · -- the replacement character is none of those that a NUL could come from
      rw [hz, decode, if_neg (by decide), if_pos rfl, finish_cons f (by decide) (by decide)] at h
      exact absurd (eq_of_append_eq h hlen).1 hf
    by_cases ha : c = '&'
    · rw [ha, decode, if_pos rfl] at h hc
      cases href : refs.read (normalizeNewlines (cs.takeWhile fun c => c ≠ '"')) with
      | none =>
        rw [href] at h
        simp only at h
        rw [finish_cons f (by decide) (by decide)] at h
        have hplain := ih (eq_of_append_eq h hlen).2
        rw [takeWhile_of_plain hplain, normalizeNewlines_of_plain hplain] at href
        exact ⟨hq, hz, hr, hn, fun _ => href, hplain⟩
      | some r =>
        -- the reference is longer than what it stands for
        obtain ⟨rs, n⟩ := r
        rw [href] at hc
        simp only at hc
        obtain ⟨h₁, h₂⟩ := refs.within _ _ _ href
        have h₃ := length_finish f
          (rs ++ decode refs n (normalizeNewlines (cs.takeWhile fun c => c ≠ '"')))
        have h₄ := length_decode refs n (normalizeNewlines (cs.takeWhile fun c => c ≠ '"'))
        have h₅ := length_normalizeNewlines (cs.takeWhile fun c => c ≠ '"')
        have h₆ := (List.takeWhile_sublist (l := cs) fun c => decide (c ≠ '"')).length_le
        rw [List.length_append] at h₃
        omega
    rw [decode_other refs ha hz, finish_cons f hr hn] at h
    exact ⟨hq, hz, hr, hn, fun he => absurd he ha, ih (eq_of_append_eq h hlen).2⟩

end AttributeValue
