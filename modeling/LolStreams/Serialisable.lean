import LolStreams.ConcurrentEdits

/-! When concurrent edits of one streamer are serialisable. A request writes the fields that
differ from what it loaded, so what is left in the end is put together field by field. -/
namespace LolStreams

open Ruby

section

variable (conv : Conversions) (password : Option String)

/-- The requests one after the other. -/
def serially (stored : Streamer) (forms : List EditForm) : Streamer :=
  forms.foldl (fun doc form => (edit conv password (form.request password) doc).1) stored

/-- What a request that has loaded a document makes of the stored one. -/
def EditForm.write (form : EditForm) (loaded stored : Streamer) : Streamer :=
  save (form.apply conv loaded)
    { form.apply conv loaded with summonerNames := some form.names.cleaned.toHash }
    (save loaded (form.apply conv loaded) stored)

/-- The document has what the form submits. -/
structure EditForm.Shown (form : EditForm) (doc : Streamer) : Prop where
  team : doc.team = some form.team
  gender : doc.gender = mongoizeInteger conv (.str form.gender)
  names : sameNames doc.summonerNames (some form.names.cleaned.toHash) = true

/-- Whatever team, gender and names the forms submit, some form submits all three. -/
def Combines {ι : Type} (form : ι → EditForm) : Prop :=
  ∀ i j k, ∃ l, (form l).team = (form i).team ∧
    mongoizeInteger conv (.str (form l).gender) = mongoizeInteger conv (.str (form j).gender) ∧
    sameNames (some (form l).names.cleaned.toHash) (some (form k).names.cleaned.toHash) = true

/-- The document is one that some serial order of all the requests leaves. -/
def Serial {ι : Type} (form : ι → EditForm) (stored doc : Streamer) : Prop :=
  ∃ order : List ι, order.Nodup ∧ (∀ i, i ∈ order) ∧
    doc.Same (serially conv password stored (order.map form))

end

/-! ### One request -/

section

variable (conv : Conversions) (password : Option String) (form : EditForm)

theorem edit_eq_write (stored : Streamer) :
    (edit conv password (form.request password) stored).1 = form.write conv stored stored := by
  rw [edit_request]
  rfl

theorem sameRecord_write (loaded stored : Streamer) :
    (form.write conv loaded stored).SameRecord stored := by
  simp [EditForm.write, Streamer.SameRecord, save, EditForm.apply]

theorem team_write (loaded stored : Streamer) : (form.write conv loaded stored).team =
    if loaded.team = some form.team then stored.team else some form.team := by
  by_cases h : loaded.team = some form.team <;> simp [EditForm.write, save, EditForm.apply, h]

theorem gender_write (loaded stored : Streamer) : (form.write conv loaded stored).gender =
    if loaded.gender = mongoizeInteger conv (.str form.gender) then stored.gender
    else mongoizeInteger conv (.str form.gender) := by
  by_cases h : loaded.gender = mongoizeInteger conv (.str form.gender) <;>
    simp [EditForm.write, save, EditForm.apply, h]

/-- A request that found no names writes its own. -/
theorem names_write {loaded : Streamer} (h : loaded.summonerNames = none) (stored : Streamer) :
    sameNames (form.write conv loaded stored).summonerNames
      (some form.names.cleaned.toHash) = true := by
  have hfirst : (save loaded (form.apply conv loaded) stored).summonerNames =
      some form.names.toHash := by
    simp [save, h, sameNames, EditForm.apply]
  refine sameNames_save ?_ (sameNames_refl form.names.cleaned)
  intro hsame
  rw [hfirst]
  exact hsame

theorem shown_edit (stored : Streamer) :
    form.Shown conv (edit conv password (form.request password) stored).1 := by
  refine ⟨?_, ?_, sameNames_edit conv password form stored⟩
  · rw [edit_eq_write, team_write]
    split_ifs with h
    · exact h
    · rfl
  · rw [edit_eq_write, gender_write]
    split_ifs with h
    · exact h
    · rfl

theorem sameRecord_serially (stored : Streamer) (forms : List EditForm) :
    (serially conv password stored forms).SameRecord stored := by
  induction forms generalizing stored with
  | nil => exact ⟨rfl, rfl⟩
  | cons form forms ih =>
    have hrest := ih (edit conv password (form.request password) stored).1
    have hfirst : (edit conv password (form.request password) stored).1.SameRecord stored := by
      rw [edit_eq_write]
      exact sameRecord_write conv form stored stored
    exact ⟨hrest.1.trans hfirst.1, hrest.2.trans hfirst.2⟩

/-- A serial order ends with the last form. -/
theorem shown_serially (stored : Streamer) (forms : List EditForm) :
    form.Shown conv (serially conv password stored (forms ++ [form])) := by
  rw [serially, List.foldl_append]
  exact shown_edit conv password form _

end

section

variable {ι : Type} {conv : Conversions} {form : ι → EditForm}

/-- What one form submits in a single field can be combined with the rest of another. -/
theorem combines_of_pairs
    (hteam : ∀ i j, ∃ l, (form l).team = (form i).team ∧
      mongoizeInteger conv (.str (form l).gender) = mongoizeInteger conv (.str (form j).gender) ∧
      sameNames (some (form l).names.cleaned.toHash) (some (form j).names.cleaned.toHash) = true)
    (hgender : ∀ i j, ∃ l, (form l).team = (form j).team ∧
      mongoizeInteger conv (.str (form l).gender) = mongoizeInteger conv (.str (form i).gender) ∧
      sameNames (some (form l).names.cleaned.toHash) (some (form j).names.cleaned.toHash) = true) :
    Combines conv form := by
  intro i j k
  obtain ⟨l, _, hg, hn⟩ := hgender j k
  obtain ⟨m, ht, hg', hn'⟩ := hteam i l
  exact ⟨m, ht, hg'.trans hg, sameNames_trans hn' hn⟩

end

/-! ### Schedules -/

namespace Concurrent

variable {ι : Type} [DecidableEq ι] (conv : Conversions) (password : Option String)
  (form : ι → EditForm) {s : Concurrent ι} {i : ι}

theorem reaches_found (h : s.progress i = .waiting) :
    Runs.Reaches (step conv password fun i => (form i).request password) s
      ⟨s.stored, Function.update s.progress i (.found s.stored)⟩ := by
  refine Runs.Guarded.refl.tail trivial (e := i) ?_
  simp [step, h, advance]

/-- From the document it has loaded a request goes on to its end. -/
theorem reaches_finished {loaded : Streamer} (h : s.progress i = .found loaded) :
    Runs.Reaches (step conv password fun i => (form i).request password) s
      ⟨(form i).write conv loaded s.stored,
        Function.update s.progress i (.finished none)⟩ := by
  have hupdate : step conv password (fun i => (form i).request password) s i =
      some ⟨save loaded ((form i).apply conv loaded) s.stored,
        Function.update s.progress i (.updated ((form i).apply conv loaded))⟩ := by
    simp only [step, h, advance_found]
  refine (Runs.Guarded.refl.tail trivial hupdate).tail trivial (e := i) ?_
  have hnames : ((form i).apply conv loaded).summonerNames = some (form i).names.toHash := rfl
  simp only [step, Function.update_self, advance_updated conv password (form i) _ _ hnames,
    Function.update_idem]
  rfl

theorem reaches_alone (h : s.progress i = .waiting) :
    ∃ stored, Runs.Reaches (step conv password fun i => (form i).request password) s
      ⟨stored, Function.update s.progress i (.finished none)⟩ := by
  have hfound := reaches_found conv password form h
  have hrest := reaches_finished conv password form
    (s := ⟨s.stored, Function.update s.progress i (.found s.stored)⟩) (i := i)
    (Function.update_self i _ _)
  rw [Function.update_idem] at hrest
  exact ⟨_, hfound.trans hrest⟩

/-- The requests of a list, one after the other. -/
theorem reaches_each {is : List ι} (hn : is.Nodup) (h : ∀ i ∈ is, s.progress i = .waiting) :
    ∃ t, Runs.Reaches (step conv password fun i => (form i).request password) s t ∧
      (∀ i ∈ is, t.progress i = .finished none) ∧ ∀ i ∉ is, t.progress i = s.progress i := by
  induction is generalizing s with
  | nil => exact ⟨s, .refl, by simp, fun _ _ => rfl⟩
  | cons i is ih =>
    obtain ⟨hi, hn⟩ := List.nodup_cons.mp hn
    obtain ⟨stored, halone⟩ := reaches_alone conv password form (h i List.mem_cons_self)
    have hne : ∀ j ∈ is, j ≠ i := fun j hj he => hi (he ▸ hj)
    obtain ⟨t, ht, hdone, hkept⟩ := ih (s := ⟨stored, Function.update s.progress i (.finished none)⟩)
      hn fun j hj => by simpa [hne j hj] using h j (List.mem_cons_of_mem _ hj)
    refine ⟨t, halone.trans ht, ?_, ?_⟩
    · intro j hj
      rcases List.mem_cons.mp hj with rfl | hj
      · simpa using hkept j hi
      · exact hdone j hj
    · intro j hj
      rw [List.mem_cons, not_or] at hj
      simpa [hj.1] using hkept j hj.2

/-- Two requests load the document before anything is written, and write it after everyone
else. -/
theorem overlap [Fintype ι] (stored : Streamer) {i j : ι} (hij : i ≠ j) :
    ∃ (s : Concurrent ι) (between : Streamer),
      Runs.Reaches (step conv password fun i => (form i).request password) (.start stored) s ∧
      (∀ k, ∃ raised, s.progress k = .finished raised) ∧
      s.stored = (form j).write conv stored ((form i).write conv stored between) := by
  let others := ((Finset.univ.erase i).erase j).toList
  let loading : Concurrent ι :=
    ⟨stored, Function.update (Function.update (fun _ => .waiting) i (.found stored)) j
      (.found stored)⟩
  have hothers : ∀ k, k ∈ others ↔ k ≠ j ∧ k ≠ i := by simp [others]
  have hloading : Runs.Reaches (step conv password fun i => (form i).request password)
      (.start stored) loading := by
    have hfirst := reaches_found conv password form (s := Concurrent.start stored) (i := i) rfl
    refine hfirst.trans (reaches_found conv password form ?_)
    simp [Function.update_of_ne hij.symm, start]
  have hwaiting : ∀ k ∈ others, loading.progress k = .waiting := by
    intro k hk
    simp [loading, Function.update_of_ne ((hothers k).mp hk).1,
      Function.update_of_ne ((hothers k).mp hk).2]
  obtain ⟨t, ht, hdone, hkept⟩ := reaches_each conv password form
    (((Finset.univ.erase i).erase j).nodup_toList) hwaiting
  have hi : t.progress i = .found stored := by
    rw [hkept i (by simp)]
    simp [loading, Function.update_of_ne hij]
  have hj : t.progress j = .found stored := by
    rw [hkept j (by simp)]
    simp [loading]
  have hfirst := reaches_finished conv password form hi
  have hsecond := reaches_finished conv password form
    (s := ⟨(form i).write conv stored t.stored, Function.update t.progress i (.finished none)⟩)
    ((Function.update_of_ne hij.symm _ _).trans hj)
  refine ⟨_, t.stored, ((hloading.trans ht).trans hfirst).trans hsecond, ?_, rfl⟩
  intro k
  refine ⟨none, ?_⟩
  by_cases hkj : k = j
  · simp [hkj]
  · by_cases hki : k = i
    · simp [hki, Function.update_of_ne hij]
    · simp [hkj, hki, hdone k ((hothers k).mpr ⟨hkj, hki⟩)]

end Concurrent

/-! ### What is left in the end -/

section

variable {ι : Type} [DecidableEq ι] {conv : Conversions} {password : Option String}
  {form : ι → EditForm} {stored : Streamer} {s : Concurrent ι}

theorem shown_of_combines (hc : Combines conv form) (i : ι)
    (h : Runs.Reaches (Concurrent.step conv password fun i => (form i).request password)
      (.start stored) s)
    (hf : ∀ i, ∃ raised, s.progress i = .finished raised) :
    ∃ l, (form l).Shown conv s.stored := by
  obtain ⟨⟨t, ht⟩, ⟨g, hg⟩, ⟨n, hn⟩⟩ := Concurrent.fields_of_finished h hf i
  obtain ⟨l, hteam, hgender, hnames⟩ := hc t g n
  exact ⟨l, by rw [hteam, ht], by rw [hgender, hg], sameNames_trans hn (sameNames_symm hnames)⟩

/-- Serial orders are told apart by their last form only. -/
theorem serial_iff [Fintype ι] [Nonempty ι] {doc : Streamer} (hrec : doc.SameRecord stored) :
    Serial conv password form stored doc ↔ ∃ l, (form l).Shown conv doc := by
  constructor
  · rintro ⟨order, _, hall, hsame⟩
    rcases List.eq_nil_or_concat order with rfl | ⟨front, l, rfl⟩
    · exact absurd (hall (Classical.arbitrary ι)) List.not_mem_nil
    · obtain ⟨_, hteam, hgender, hnames⟩ := hsame
      rw [List.concat_eq_append, List.map_append, List.map_singleton] at hteam hgender hnames
      have hshown := shown_serially conv password (form l) stored
        (front.map form)
      exact ⟨l, hteam.trans hshown.team, hgender.trans hshown.gender,
        sameNames_trans hnames hshown.names⟩
  · rintro ⟨l, hl⟩
    have hlast := shown_serially conv password (form l) stored
      ((Finset.univ.erase l).toList.map form)
    have hkept := sameRecord_serially conv password stored
      ((Finset.univ.erase l).toList.map form ++ [form l])
    refine ⟨(Finset.univ.erase l).toList ++ [l], ?_, ?_, ?_⟩
    · rw [List.nodup_append]
      refine ⟨Finset.nodup_toList _, List.nodup_singleton l, ?_⟩
      simp
    · intro i
      by_cases hi : i = l <;> simp [hi]
    · rw [List.map_append, List.map_singleton]
      exact ⟨⟨hrec.1.trans hkept.1.symm, hrec.2.trans hkept.2.symm⟩,
        hl.team.trans hlast.team.symm, hl.gender.trans hlast.gender.symm,
        sameNames_trans hl.names (sameNames_symm hlast.names)⟩

end

section

variable {ι : Type} [Fintype ι] [DecidableEq ι] {conv : Conversions} {password : Option String}
  {form : ι → EditForm}

/-- All interleavings end with a document of some form. -/
def EndsWithOne (conv : Conversions) (password : Option String) (form : ι → EditForm) : Prop :=
  ∀ stored s, Runs.Reaches (Concurrent.step conv password fun i => (form i).request password)
      (.start stored) s →
    (∀ i, ∃ raised, s.progress i = .finished raised) → ∃ l, (form l).Shown conv s.stored

/-- The document that makes one request keep its hands off the team, or off the gender, but
off nothing else. -/
theorem pair_of_overlap (h : EndsWithOne conv password form) {i j : ι} (hij : i ≠ j)
    (stored : Streamer) (hnames : stored.summonerNames = none) :
    ∃ l between,
      some (form l).team = ((form j).write conv stored ((form i).write conv stored between)).team ∧
      mongoizeInteger conv (.str (form l).gender) =
        ((form j).write conv stored ((form i).write conv stored between)).gender ∧
      sameNames (some (form l).names.cleaned.toHash) (some (form j).names.cleaned.toHash) =
        true := by
  obtain ⟨s, between, hs, hf, hstored⟩ := Concurrent.overlap conv password form stored hij
  obtain ⟨l, hl⟩ := h stored s hs hf
  have hwritten := names_write conv (form j) hnames ((form i).write conv stored between)
  rw [hstored] at hl
  exact ⟨l, between, hl.team.symm, hl.gender.symm, sameNames_trans (sameNames_symm hl.names) hwritten⟩

theorem combines_of_endsWithOne (h : EndsWithOne conv password form) : Combines conv form := by
  have hother : ∀ g : Option ℤ, ∃ g', g' ≠ g := fun g => exists_ne g
  apply combines_of_pairs
  · intro i j
    by_cases hij : (form i).team = (form j).team
    · exact ⟨j, hij.symm, rfl, sameNames_refl _⟩
    · have hne : i ≠ j := fun he => hij (by rw [he])
      obtain ⟨gender, hg⟩ := hother (mongoizeInteger conv (.str (form j).gender))
      obtain ⟨l, between, ht, hgender, hn⟩ := pair_of_overlap h hne
        ⟨none, none, gender, some (form j).team, none⟩ rfl
      refine ⟨l, ?_, ?_, hn⟩
      · rw [team_write, team_write, if_pos rfl, if_neg] at ht
        · exact Option.some.inj ht
        · exact fun he => hij (Option.some.inj he).symm
      · rw [hgender, gender_write, if_neg hg]
  · intro i j
    by_cases hij : mongoizeInteger conv (.str (form i).gender) =
        mongoizeInteger conv (.str (form j).gender)
    · exact ⟨j, rfl, hij.symm, sameNames_refl _⟩
    · have hne : i ≠ j := fun he => hij (by rw [he])
      obtain ⟨l, between, ht, hgender, hn⟩ := pair_of_overlap h hne
        ⟨none, none, mongoizeInteger conv (.str (form j).gender), none, none⟩ rfl
      refine ⟨l, ?_, ?_, hn⟩
      · rw [team_write, if_neg (by simp)] at ht
        exact Option.some.inj ht
      · rw [hgender, gender_write, gender_write, if_pos rfl, if_neg (Ne.symm hij)]

end

/-- All interleavings, on every stored document, end like some serial order of the edits. -/
def Serialisable {ι : Type} [DecidableEq ι] (conv : Conversions)
    (password : Option String) (form : ι → EditForm) : Prop :=
  ∀ stored s, Runs.Reaches (Concurrent.step conv password fun i => (form i).request password)
      (.start stored) s →
    (∀ i, ∃ raised, s.progress i = .finished raised) → Serial conv password form stored s.stored

theorem serialisable_iff_combines {ι : Type} [Fintype ι] [DecidableEq ι] [Nonempty ι]
    (conv : Conversions) (password : Option String) (form : ι → EditForm) :
    Serialisable conv password form ↔ Combines conv form := by
  constructor
  · intro h
    have hends : EndsWithOne conv password form := by
      intro stored s hs hf
      exact (serial_iff (Concurrent.sameRecord_of_reaches hs)).mp (h stored s hs hf)
    exact combines_of_endsWithOne hends
  · intro hc stored s hs hf
    rw [serial_iff (Concurrent.sameRecord_of_reaches hs)]
    exact shown_of_combines hc (Classical.arbitrary ι) hs hf

/-! ### Two edits -/

instance : Fintype Side := ⟨{.first, .second}, fun i => by cases i <;> decide⟩

instance : Nonempty Side := ⟨.first⟩

/-- For two edits it takes two fields in which they agree. -/
def AgreeInTwo (conv : Conversions) (form : Side → EditForm) : Prop :=
  ((form .first).team = (form .second).team ∧
    mongoizeInteger conv (.str (form .first).gender) =
      mongoizeInteger conv (.str (form .second).gender)) ∨
  ((form .first).team = (form .second).team ∧
    sameNames (some (form .first).names.cleaned.toHash)
      (some (form .second).names.cleaned.toHash) = true) ∨
  (mongoizeInteger conv (.str (form .first).gender) =
      mongoizeInteger conv (.str (form .second).gender) ∧
    sameNames (some (form .first).names.cleaned.toHash)
      (some (form .second).names.cleaned.toHash) = true)

theorem combines_two_iff {conv : Conversions} {form : Side → EditForm} :
    Combines conv form ↔ AgreeInTwo conv form := by
  constructor
  · intro h
    obtain ⟨l₁, ht₁, hg₁, hn₁⟩ := h .first .second .second
    obtain ⟨l₂, ht₂, hg₂, hn₂⟩ := h .second .first .second
    obtain ⟨l₃, ht₃, hg₃, hn₃⟩ := h .second .second .first
    cases l₁ with
    | first => exact .inr (.inr ⟨hg₁, hn₁⟩)
    | second =>
      cases l₂ with
      | first => exact .inr (.inl ⟨ht₂, hn₂⟩)
      | second => exact .inl ⟨ht₁.symm, hg₂.symm⟩
  · intro h i j k
    rcases h with ⟨ht, hg⟩ | ⟨ht, hn⟩ | ⟨hg, hn⟩
    · refine ⟨k, ?_, ?_, sameNames_refl _⟩
      · cases k <;> cases i <;> simp only [ht]
      · cases k <;> cases j <;> simp only [hg]
    · refine ⟨j, ?_, rfl, ?_⟩
      · cases j <;> cases i <;> simp only [ht]
      · cases j <;> cases k <;> first | exact sameNames_refl _ | exact hn | exact sameNames_symm hn
    · refine ⟨i, rfl, ?_, ?_⟩
      · cases i <;> cases j <;> simp only [hg]
      · cases i <;> cases k <;> first | exact sameNames_refl _ | exact hn | exact sameNames_symm hn

/-- Any number of concurrent edits end like some serial order of them, whatever the stored
document and the interleaving, exactly when every combination of a team, a gender and names
that the forms submit is itself submitted by one of them; which for two edits means that they
agree in two of the three. -/
theorem serialisable_iff (conv : Conversions) (password : Option String) :
    (∀ (ι : Type) [Fintype ι] [DecidableEq ι] [Nonempty ι] (form : ι → EditForm),
      Serialisable conv password form ↔ Combines conv form) ∧
    ∀ form : Side → EditForm, Serialisable conv password form ↔ AgreeInTwo conv form := by
  refine ⟨?_, ?_⟩
  · intro ι _ _ _ form
    exact serialisable_iff_combines conv password form
  · intro form
    rw [serialisable_iff_combines, combines_two_iff]

/-- A form with another team and one with other names. -/
theorem serialisable_teamAndNames :
    (Serialisable noConversions none teamAndNames ↔ Combines noConversions teamAndNames) ∧
      ¬ Serialisable noConversions none teamAndNames := by
  obtain ⟨hany, htwo⟩ := serialisable_iff noConversions none
  refine ⟨hany Side teamAndNames, ?_⟩
  rw [htwo, AgreeInTwo]
  decide

end LolStreams
