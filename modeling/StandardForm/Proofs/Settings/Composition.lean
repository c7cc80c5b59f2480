import StandardForm.Proofs.Settings.Validity

/-!
# One change after another

Settings that have been built are built again from their own fields, so that these can stand in for
whatever the settings were built from. Two changes one after the other are therefore a single change
by the fields of both, in which the second one prevails. That holds as long as the second change
does not turn to another precision: it would take the tolerances of the first one back to the
defaults, which the single change does not, as the tolerances are named in it.
-/

namespace StandardForm

namespace Settings

variable {s s₁ : Settings} {fields changes changes₁ changes₂ : Fields}
  {others others₁ others₂ : List String}

/-! ## Fields -/

theorem Fields.update_update (fields changes₁ changes₂ : Fields) :
    (fields.update changes₁).update changes₂ = fields.update (changes₁.update changes₂) := by
  simp [Fields.update, Option.or_assoc]

theorem Fields.update_self (fields : Fields) : fields.update fields = fields := by
  simp [Fields.update]

/-- Where a field is named, what it would have been otherwise does not matter. -/
theorem read_or {α : Type} {read : Option Datum → α} {kept kept' : Option Datum}
    (h : read kept = read kept') (named : Option Datum) :
    read (named.or kept) = read (named.or kept') := by
  cases named with
  | none => exact h
  | some d => rfl

/-- The changes name no precision, or one that means `p`. -/
def Fields.Keeps (changes : Fields) (p : Precision) : Prop :=
  ∀ d ∈ changes.precision, Vocabulary.coerce Precision "precision" d = .ok p

theorem Fields.Keeps.choice_or {p : Precision} (h : changes.Keeps p) {default : Precision}
    {kept : Option Datum} (hkept : choice "precision" default kept = .ok p) :
    choice "precision" default (changes.precision.or kept) = .ok p := by
  cases hnamed : changes.precision with
  | none => exact hkept
  | some d => exact h d hnamed

/-- The fields that settings have can replace those that they were built from, before they are
changed within their precision. -/
theorem build_update_toFields (h : build fields = .ok s) (hchanges : changes.Keeps s.precision) :
    build (s.toFields.update changes) = build (fields.update changes) := by
  obtain ⟨hprecision, hpivot, hrule, hlimit, htol, htolG⟩ := build_eq_ok.mp h
  obtain ⟨hprecision', hpivot', hrule', hlimit', htol', htolG'⟩ :=
    build_eq_ok.mp (valid_of_build h).build_toFields
  have hnew : choice "precision" Precision.standard (fields.update changes).precision =
      .ok s.precision := hchanges.choice_or hprecision
  have hnew' : choice "precision" Precision.standard (s.toFields.update changes).precision =
      .ok s.precision := hchanges.choice_or hprecision'
  rw [build, build, hnew, hnew', ok_bind, ok_bind]
  have hpivots := read_or (hpivot'.trans hpivot.symm) changes.pivot
  have hrules := read_or (hrule'.trans hrule.symm) changes.rule
  have hlimits := read_or (hlimit'.trans hlimit.symm) changes.maxIter
  have htols := read_or (htol'.trans htol.symm) changes.tol
  have htolGs := read_or (htolG'.trans htolG.symm) changes.tolG
  simp only [Fields.update, hpivots, hrules, hlimits, htols, htolGs]

/-! ## Changes -/

/-- The fields that settings keep in a change to a precision. -/
def kept (s : Settings) (p : Precision) : Fields :=
  if p = s.precision then s.toFields else s.toFields.forgetTolerances

theorem kept_precision (s : Settings) (p : Precision) :
    (s.kept p).precision = s.toFields.precision := by
  unfold kept
  split <;> rfl

theorem kept_self (s : Settings) : s.kept s.precision = s.toFields := if_pos rfl

/-- The precision that a change looks at first is the one that it builds with. -/
theorem choice_kept (s : Settings) (p : Precision) (changes : Fields) :
    choice "precision" Precision.standard ((s.kept p).update changes).precision =
      choice "precision" s.precision changes.precision := by
  change choice "precision" Precision.standard (changes.precision.or (s.kept p).precision) = _
  rw [kept_precision]
  cases changes.precision with
  | none => exact choice_toMember (a := s.precision) rfl
  | some d => rfl

/-- A change whose precision is one. -/
theorem change_of_choice {p : Precision}
    (h : choice "precision" s.precision changes.precision = .ok p) :
    s.change changes others =
      if others ≠ [] then .error .unknownField else build ((s.kept p).update changes) := by
  rw [change_eq, h, ok_bind]
  by_cases hothers : others = []
  · simp [hothers, kept]
  · simp [hothers]

theorem change_of_keeps (h : changes.Keeps s.precision) :
    s.change changes others =
      if others ≠ [] then .error .unknownField else build (s.toFields.update changes) := by
  have hchoice : choice "precision" s.precision (changes.precision.or .none) = .ok s.precision :=
    h.choice_or rfl
  rw [Option.or_none] at hchoice
  rw [change_of_choice hchoice, kept_self]

/-- What a change that succeeds has found: no other names, the new precision, the new settings. -/
theorem exists_choice_of_change (h : s.change changes others = .ok s₁) :
    others = [] ∧ choice "precision" s.precision changes.precision = .ok s₁.precision ∧
      build ((s.kept s₁.precision).update changes) = .ok s₁ := by
  have hsteps := h
  rw [change_eq] at hsteps
  split at hsteps
  · cases hsteps
  obtain ⟨p, hp, -⟩ := bind_eq_ok.mp hsteps
  rw [change_of_choice hp] at h
  split at h
  · cases h
  next hothers =>
  have hprecision := (build_eq_ok.mp h).1
  rw [choice_kept, hp] at hprecision
  cases hprecision
  exact ⟨not_not.mp hothers, hp, h⟩

/-- The changes that have led to settings keep their precision. -/
theorem keeps_of_choice {p default : Precision}
    (h : choice "precision" default changes.precision = .ok p) : changes.Keeps p := by
  intro d hd
  rwa [Option.mem_def.mp hd] at h

/-- A change by the fields of two, in which the second keeps the precision that the first one has
led to, starts again from the settings that it has led to. -/
theorem change_update (h : s.change changes₁ others₁ = .ok s₁)
    (hchanges : changes₂.Keeps s₁.precision) :
    s.change (changes₁.update changes₂) others =
      if others ≠ [] then .error .unknownField else build (s₁.toFields.update changes₂) := by
  obtain ⟨-, hchoice, hbuild⟩ := exists_choice_of_change h
  have hmerged : choice "precision" s.precision (changes₁.update changes₂).precision =
      .ok s₁.precision := hchanges.choice_or hchoice
  rw [change_of_choice hmerged, ← Fields.update_update, build_update_toFields hbuild hchanges]

/-- Two changes, one after the other, do what a single change by the fields of both does, or fail
with the same fault, unless the second one names another precision than the first has led to. So a
change that succeeds changes nothing when it is made again. -/
theorem change_change (hfirst : s.change changes₁ others₁ = .ok s₁)
    (hsecond : changes₂.Keeps s₁.precision) :
    s₁.change changes₂ others₂ = s.change (changes₁.update changes₂) (others₁ ++ others₂) ∧
      s₁.change changes₁ others₁ = .ok s₁ := by
  obtain ⟨hothers, hchoice, hbuild⟩ := exists_choice_of_change hfirst
  constructor
  · rw [change_update hfirst hsecond, change_of_keeps hsecond, hothers, List.nil_append]
  · have hagain := keeps_of_choice hchoice
    rw [change_of_keeps hagain, ← change_update hfirst hagain, Fields.update_self, hfirst]

/-- Standard precision, by its name, and the row method; one tolerance is left to its default. -/
def rowChanges : Fields :=
  { Fields.none with
    precision := some (.text "STANDARD"), pivot := some (.text "row"), tol := some .absent }

def narrowingChanges : Fields :=
  { Fields.none with precision := some (.text "standard"), tolG := some (.text "1e-3") }

theorem change_change_narrowing :
    ∃ s s₁ s₂ : Settings, build tightFields = .ok s ∧ s.precision = .extended ∧
      s.change narrowingChanges [] = .ok s₁ ∧ s₁.precision = .standard ∧
      s₁.change rowChanges [] = .ok s₂ ∧ s₂.pivot = .row ∧
      s.change (narrowingChanges.update rowChanges) [] = .ok s₂ ∧
      s₁.change narrowingChanges [] = .ok s₁ := by
  have hstart : (build tightFields).toOption.map (·.precision) = some .extended := by
    decide +kernel
  have hnarrow : (build tightFields >>= fun s => s.change narrowingChanges []).toOption.map
      (·.precision) = some .standard := by
    decide +kernel
  have hrow : (build tightFields >>= fun s => s.change narrowingChanges [] >>= fun s =>
      s.change rowChanges []).toOption.map (·.pivot) = some .row := by
    decide +kernel
  have hname : Vocabulary.coerce Precision "precision" (.text "STANDARD") = .ok .standard :=
    toOption_eq_some.mp (by decide +kernel)
  obtain ⟨s₂, hs₂, hpivot⟩ := Option.map_eq_some_iff.mp hrow
  obtain ⟨s, hs, hsteps⟩ := bind_eq_ok.mp (toOption_eq_some.mp hs₂)
  obtain ⟨s₁, hs₁, hs₂⟩ := bind_eq_ok.mp hsteps
  rw [hs] at hstart
  rw [hs, ok_bind, hs₁] at hnarrow
  have hprecision : s₁.precision = .standard := Option.some.inj hnarrow
  have hkeeps : rowChanges.Keeps s₁.precision := by
    intro d hd
    obtain rfl : Datum.text "STANDARD" = d := Option.some.inj hd
    rw [hprecision, hname]
  obtain ⟨hmerged, hagain⟩ : s₁.change rowChanges [] =
      s.change (narrowingChanges.update rowChanges) ([] ++ []) ∧
        s₁.change narrowingChanges [] = .ok s₁ :=
    change_change hs₁ hkeeps
  exact ⟨s, s₁, s₂, hs, Option.some.inj hstart, hs₁, hprecision, hs₂, hpivot,
    hmerged.symm.trans hs₂, hagain⟩

end Settings

end StandardForm
