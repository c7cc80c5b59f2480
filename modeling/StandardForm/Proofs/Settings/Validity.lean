import StandardForm.Proofs.Binary.Monotone
import StandardForm.Proofs.Binary.Order
import StandardForm.Proofs.Datum.Stored
import StandardForm.Settings

/-!
# Settings along a run of changes

Settings come into being in one way only: they are built from fields, and a change builds them again
from the fields that they have and those that are changed. So whatever building establishes holds
after every run of changes. The iteration limit is positive. So are the tolerances, as numbers of
the precision that is in force, which is part of their type: a tolerance that is rounded to zero on
its way into that precision is refused like any other that is not positive. And the fields of the
settings, handed in again, build them again.
-/

namespace StandardForm

namespace Settings

/-! ## The fields one by one -/

theorem limit_pos {d : Option Datum} {n : Int} (h : limit d = .ok n) : 1 ≤ n := by
  cases d with
  | none =>
    cases h
    decide
  | some d =>
    obtain ⟨m, -, h⟩ := bind_eq_ok.mp h
    cases m with
    | none => cases h
    | some m =>
      dsimp only at h
      split at h
      · cases h
      · next hpos =>
        cases h
        omega

/-- A positive integer is its own iteration limit. -/
theorem limit_integer {n : Int} (h : 1 ≤ n) : limit (some (.integer n)) = .ok n := by
  have hpos : ¬ n ≤ 0 := by omega
  have hwhole : (Datum.integer n).wholeNumber = .ok (some n) := rfl
  rw [limit, hwhole, ok_bind]
  exact if_neg hpos

/-- A number above zero, with few enough axes around it that it can be handed in again. -/
structure Tolerable {f : FloatFormat} (x : Nested (Binary f)) : Prop where
  positive : 0 < x.value
  axes : x.depth ≤ maxAxes

variable {p : Precision} {field : String} {exponent : Nat}

/-- A datum given as a tolerance, unless it is missing, is a positive number. -/
theorem tolerance_some {d : Datum} (hd : d ≠ .absent) {x : Nested p.Entry} :
    tolerance p field exponent (some d) = .ok x ↔ d.toNested p.format = .ok x ∧ 0 < x.value := by
  have htolerance : tolerance p field exponent (some d) =
      d.toNested p.format >>= fun x =>
        if 0 < x.value then .ok x else .error (.notPositive field) := by
    unfold tolerance
    split
    · next h => cases h
    · next h => exact absurd (Option.some.inj h) hd
    · next h =>
      cases h
      rfl
  rw [htolerance, bind_eq_ok]
  constructor
  · rintro ⟨y, hy, h⟩
    split at h
    · next hpos =>
      cases h
      exact ⟨hy, hpos⟩
    · cases h
  · rintro ⟨hx, hpos⟩
    exact ⟨x, hx, if_pos hpos⟩

/-- A tolerance is tolerable if its default is, and a single number if it is given as one. -/
theorem tolerable_of_tolerance (hdefault : 0 < Binary.twoPowNeg p.format exponent)
    {d : Option Datum} {x : Nested p.Entry} (h : tolerance p field exponent d = .ok x) :
    Tolerable x ∧ ((∀ a ∈ d, ∃ s, a.toScalar? = some s) → x.depth = 0) := by
  have hmissing : Tolerable (⟨.twoPowNeg p.format exponent, 0⟩ : Nested p.Entry) :=
    ⟨hdefault, Nat.zero_le _⟩
  cases d with
  | none =>
    cases h
    exact ⟨hmissing, fun _ => rfl⟩
  | some d =>
    by_cases hd : d = .absent
    · subst hd
      cases h
      exact ⟨hmissing, fun _ => rfl⟩
    obtain ⟨hx, hpos⟩ := (tolerance_some hd).mp h
    obtain ⟨t, ht, -, hdepth⟩ := Datum.toNested_eq_ok.mp hx
    obtain ⟨e, -, -, haxes⟩ := Datum.shape_of_toTensor ht
    refine ⟨⟨hpos, hdepth ▸ haxes⟩, fun hsingle => ?_⟩
    obtain ⟨s, hs⟩ := hsingle d rfl
    rw [← hdepth, Datum.shape_toTensor_of_single hs ht]
    rfl

theorem ofNested_ne_absent {f : FloatFormat} (x : Nested (Binary f)) :
    Datum.ofNested x ≠ .absent := by
  unfold Datum.ofNested
  split <;> simp [Datum.ofTensor]

/-- A tolerable number is its own tolerance. -/
theorem Tolerable.tolerance_ofNested {x : Nested p.Entry} (h : Tolerable x) :
    tolerance p field exponent (some (.ofNested x)) = .ok x :=
  (tolerance_some (ofNested_ne_absent x)).mpr ⟨Datum.toNested_ofNested h.axes, h.positive⟩

/-- The default tolerances pass the check that every tolerance has to pass. -/
theorem defaults_pos (p : Precision) :
    0 < Binary.twoPowNeg p.format (tolExponent p) ∧
      0 < Binary.twoPowNeg p.format (tolGExponent p) := by
  cases p <;> decide +kernel

theorem choice_toMember {α : Type} [Vocabulary α] {field : String} {standard a : α}
    (h : Vocabulary.ofMember? (Vocabulary.toMember a) = some a) :
    choice field standard (some (.scalar (.member (Vocabulary.toMember a)))) = .ok a := by
  simp [choice, Vocabulary.coerce, Vocabulary.resolve, h]

/-! ## Building and changing -/

/-- Settings are built exactly if each of their fields is. -/
theorem build_eq_ok {fields : Fields} {s : Settings} :
    build fields = .ok s ↔
      choice "precision" Precision.standard fields.precision = .ok s.precision ∧
      choice "pivot" Pivot.column fields.pivot = .ok s.pivot ∧
      choice "rule" Rule.dantzig fields.rule = .ok s.rule ∧
      limit fields.maxIter = .ok s.maxIter ∧
      tolerance s.precision "tol" (tolExponent s.precision) fields.tol = .ok s.tol ∧
      tolerance s.precision "tol_g" (tolGExponent s.precision) fields.tolG = .ok s.tolG := by
  constructor
  · intro h
    obtain ⟨precision, hprecision, h⟩ := bind_eq_ok.mp h
    obtain ⟨pivot, hpivot, h⟩ := bind_eq_ok.mp h
    obtain ⟨rule, hrule, h⟩ := bind_eq_ok.mp h
    obtain ⟨maxIter, hmaxIter, h⟩ := bind_eq_ok.mp h
    obtain ⟨tol, htol, h⟩ := bind_eq_ok.mp h
    obtain ⟨tolG, htolG, h⟩ := bind_eq_ok.mp h
    cases pure_eq_ok.mp h
    exact ⟨hprecision, hpivot, hrule, hmaxIter, htol, htolG⟩
  · rintro ⟨hprecision, hpivot, hrule, hmaxIter, htol, htolG⟩
    simp only [build, hprecision, hpivot, hrule, hmaxIter, htol, htolG, ok_bind]
    rfl

/-- The order of a change: the name of its own, the precision, other names, everything. -/
theorem change_eq (s : Settings) (changes : Fields) (others : List String) :
    s.change changes others =
      if ownName ∈ others then .error .unknownField
      else choice "precision" s.precision changes.precision >>= fun precision =>
        if others ≠ [] then .error .unknownField
        else build ((if precision = s.precision then s.toFields
          else s.toFields.forgetTolerances).update changes) := by
  unfold change
  dsimp only
  split
  · rfl
  · rfl

/-- A change builds settings from some fields: the changed ones, and of those that the settings have
the remaining ones, unless the precision changes and they are tolerances. -/
theorem exists_build_of_change {s s' : Settings} {changes : Fields} {others : List String}
    (h : s.change changes others = .ok s') :
    ∃ kept, (kept = s.toFields ∨ kept = s.toFields.forgetTolerances) ∧
      build (kept.update changes) = .ok s' := by
  rw [change_eq] at h
  split at h
  · cases h
  obtain ⟨precision, -, h⟩ := bind_eq_ok.mp h
  split at h
  · cases h
  · refine ⟨_, ?_, h⟩
    split
    · exact .inl rfl
    · exact .inr rfl

/-- Settings changed again and again, each change together with the names that it gives to no field
of settings. -/
def changeAll (s : Settings) (changes : List (Fields × List String)) : Except Fault Settings :=
  changes.foldlM (fun s change => s.change change.1 change.2) s

/-- The iteration limit is positive and the tolerances are tolerable. -/
structure Valid (s : Settings) : Prop where
  maxIter : 1 ≤ s.maxIter
  tol : Tolerable s.tol
  tolG : Tolerable s.tolG

theorem valid_of_build {fields : Fields} {s : Settings} (h : build fields = .ok s) : s.Valid := by
  obtain ⟨-, -, -, hlimit, htol, htolG⟩ := build_eq_ok.mp h
  obtain ⟨hdefault, hdefaultG⟩ := defaults_pos s.precision
  exact ⟨limit_pos hlimit, (tolerable_of_tolerance hdefault htol).1,
    (tolerable_of_tolerance hdefaultG htolG).1⟩

/-- Valid settings are built from their own fields. -/
theorem Valid.build_toFields {s : Settings} (h : s.Valid) : build s.toFields = .ok s := by
  refine build_eq_ok.mpr ⟨?_, ?_, ?_, limit_integer h.maxIter, h.tol.tolerance_ofNested,
    h.tolG.tolerance_ofNested⟩
  · exact choice_toMember (a := s.precision) rfl
  · exact choice_toMember (a := s.pivot) rfl
  · exact choice_toMember (a := s.rule) rfl

theorem equalTolerances_self {x : Nested p.Entry} (h : 0 < x.value) :
    equalTolerances x x = true := by
  rw [equalTolerances, Binary.equals_self_iff, Binary.isNaN_cast]
  exact (Binary.isNaN_of_lt h).2

/-- Valid settings equal themselves. -/
theorem Valid.equals_self {s : Settings} (h : s.Valid) : s.equals s = true := by
  simp [equals, equalTolerances_self h.tol.positive, equalTolerances_self h.tolG.positive]

/-! ## Tolerances without axes -/

def Fields.SingleTolerances (fields : Fields) : Prop :=
  (∀ d ∈ fields.tol, ∃ s, d.toScalar? = some s) ∧ ∀ d ∈ fields.tolG, ∃ s, d.toScalar? = some s

def HasScalarTolerances (s : Settings) : Prop := s.tol.depth = 0 ∧ s.tolG.depth = 0

theorem hasScalarTolerances_of_build {fields : Fields} (hfields : fields.SingleTolerances)
    {s : Settings} (h : build fields = .ok s) : s.HasScalarTolerances := by
  obtain ⟨-, -, -, -, htol, htolG⟩ := build_eq_ok.mp h
  obtain ⟨hdefault, hdefaultG⟩ := defaults_pos s.precision
  exact ⟨(tolerable_of_tolerance hdefault htol).2 hfields.1,
    (tolerable_of_tolerance hdefaultG htolG).2 hfields.2⟩

theorem exists_toScalar_ofNested {f : FloatFormat} {x : Nested (Binary f)} (h : x.depth = 0) :
    ∃ s, (Datum.ofNested x).toScalar? = some s := by
  rw [Datum.ofNested, if_pos h]
  exact ⟨_, rfl⟩

theorem HasScalarTolerances.toFields {s : Settings} (h : s.HasScalarTolerances) :
    s.toFields.SingleTolerances := by
  constructor
  · rintro d ⟨⟩
    exact exists_toScalar_ofNested h.1
  · rintro d ⟨⟩
    exact exists_toScalar_ofNested h.2

theorem Fields.SingleTolerances.update {fields changes : Fields} (h : fields.SingleTolerances)
    (hchanges : changes.SingleTolerances) : (fields.update changes).SingleTolerances := by
  constructor
  · intro d hd
    rcases Option.or_eq_some_iff.mp hd with hd | ⟨-, hd⟩
    · exact hchanges.1 d hd
    · exact h.1 d hd
  · intro d hd
    rcases Option.or_eq_some_iff.mp hd with hd | ⟨-, hd⟩
    · exact hchanges.2 d hd
    · exact h.2 d hd

theorem HasScalarTolerances.change {s s' : Settings} (hs : s.HasScalarTolerances)
    {changes : Fields} (hchanges : changes.SingleTolerances) {others : List String}
    (h : s.change changes others = .ok s') : s'.HasScalarTolerances := by
  obtain ⟨kept, hkept, hbuild⟩ := exists_build_of_change h
  refine hasScalarTolerances_of_build (.update ?_ hchanges) hbuild
  rcases hkept with rfl | rfl
  · exact hs.toFields
  · constructor
    · intro d hd
      cases hd
    · intro d hd
      cases hd

/-! ## Runs -/

/-- A number above zero: neither a NaN nor a zero of either sign. -/
structure Positive {f : FloatFormat} (x : Binary f) : Prop where
  pos : 0 < x
  isNaN : x.isNaN = false
  isZero : x.isZero = false

theorem positive_of_pos {f : FloatFormat} {x : Binary f} (h : 0 < x) : Positive x := by
  refine ⟨h, (Binary.isNaN_of_lt h).2, ?_⟩
  change (Binary.zeroOf false).lt x = true at h
  cases x with
  | nan => rfl
  | num s r =>
    by_contra hzero
    have hr : r.val = 0 := by simpa [Binary.isZero] using hzero
    cases s <;> simp [Binary.zeroOf, Binary.lt, Binary.position, hr] at h

/-- Settings that are built and then changed any number of times have a positive iteration limit and
positive tolerances in their precision, which are single numbers if only single values have been
given as tolerances. Their fields build them again, and they equal themselves. -/
theorem valid_of_changeAll {fields : Fields} {s₀ s : Settings}
    {changes : List (Fields × List String)} (hbuild : build fields = .ok s₀)
    (hrun : s₀.changeAll changes = .ok s) :
    1 ≤ s.maxIter ∧ Positive s.tol.value ∧ Positive s.tolG.value ∧
      (fields.SingleTolerances → (∀ c ∈ changes, c.1.SingleTolerances) → s.HasScalarTolerances) ∧
      build s.toFields = .ok s ∧ s.equals s = true := by
  have hvalid : s.Valid := by
    refine foldlM_invariant Valid ?_ (valid_of_build hbuild) hrun
    intro s s' c _ _ hchange
    obtain ⟨kept, -, hkept⟩ := exists_build_of_change hchange
    exact valid_of_build hkept
  refine ⟨hvalid.maxIter, positive_of_pos hvalid.tol.positive,
    positive_of_pos hvalid.tolG.positive, ?_, hvalid.build_toFields, hvalid.equals_self⟩
  intro hfields hchanges
  refine foldlM_invariant HasScalarTolerances ?_ (hasScalarTolerances_of_build hfields hbuild) hrun
  intro s s' c hc hs hchange
  exact hs.change (hchanges c hc) hchange

/-- Settings in extended precision with a tolerance that standard precision cannot hold. -/
def tightFields : Fields :=
  { Fields.none with
    precision := some (.text "EXTENDED")
    tol := some (.text "1e-400")
    maxIter := some (.scalar (.real (.ofInt .double 40))) }

/-- The row method, then standard precision with one of the tolerances named, then the other one
rounded to single precision. -/
def looseningChanges : List (Fields × List String) :=
  [({ Fields.none with pivot := some (.text "row") }, []),
    ({ Fields.none with precision := some (.text "standard"), tolG := some (.text "1e-3") }, []),
    ({ Fields.none with tol := some (.scalar (.fixed .single (.twoPowNeg .single 7))) }, [])]

theorem valid_of_changeAll_loosening :
    ∃ s₀ s : Settings, build tightFields = .ok s₀ ∧ s₀.precision = .extended ∧
      s₀.changeAll looseningChanges = .ok s ∧ s.precision = .standard ∧ s.pivot = .row ∧
      s.maxIter = 40 ∧ s.HasScalarTolerances ∧ Positive s.tol.value ∧ Positive s.tolG.value ∧
      build s.toFields = .ok s ∧ s.equals s = true := by
  have hstart : (build tightFields).toOption.map (·.precision) = some .extended := by
    decide +kernel
  have hend : (build tightFields >>= fun s => s.changeAll looseningChanges).toOption.map
      (fun s => (s.precision, s.pivot, s.maxIter)) = some (.standard, .row, 40) := by
    decide +kernel
  obtain ⟨s, hs, hend⟩ := Option.map_eq_some_iff.mp hend
  obtain ⟨s₀, hbuild, hrun⟩ := bind_eq_ok.mp (toOption_eq_some.mp hs)
  rw [hbuild] at hstart
  obtain ⟨-, htol, htolG, hscalar, hrebuild⟩ := valid_of_changeAll hbuild hrun
  have hsingle : tightFields.SingleTolerances := by
    simp [Fields.SingleTolerances, tightFields, Fields.none, Datum.toScalar?]
  have hsingles : ∀ c ∈ looseningChanges, c.1.SingleTolerances := by
    simp [Fields.SingleTolerances, looseningChanges, Fields.none, Datum.toScalar?]
  simp only [Prod.mk.injEq] at hend
  obtain ⟨hprecision, hpivot, hmaxIter⟩ := hend
  exact ⟨s₀, s, hbuild, Option.some.inj hstart, hrun, hprecision, hpivot, hmaxIter,
    hscalar hsingle hsingles, htol, htolG, hrebuild⟩

end Settings

end StandardForm
