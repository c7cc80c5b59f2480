import Mathlib.Data.List.Forall2
import StandardForm.Proofs.Problem.Conversion
import StandardForm.Spectrum.Rounded

/-!
# The box of a program that has been built

Bounds that are equal are refused and bounds in reverse order are exchanged, so every lower bound
of a program that has been built is below its upper bound, unless one of the two is a NaN. A NaN is
neither equal to anything nor below anything, so it passes both tests and stays where it is. The box
that the bounds span has a point with finite coordinates exactly when no bound is a NaN.
-/

namespace StandardForm

variable {p : Precision}

namespace Region

/-! ## One pair of bounds -/

section Pair

variable {f : FloatFormat} (d u : Binary f)

/-- A NaN is never exchanged. -/
theorem isNaN_lowerOf : (lowerOf d u).isNaN = d.isNaN := by
  unfold lowerOf
  split
  · next h =>
    obtain ⟨hu, hd⟩ := Binary.isNaN_of_lt h
    rw [hu, hd]
  · rfl

theorem isNaN_upperOf : (upperOf d u).isNaN = u.isNaN := by
  unfold upperOf
  split
  · next h =>
    obtain ⟨hu, hd⟩ := Binary.isNaN_of_lt h
    rw [hu, hd]
  · rfl

variable {d u}

theorem lowerOf_lt_upperOf_iff (h : d.equals u = false) :
    lowerOf d u < upperOf d u ↔ d.isNaN = false ∧ u.isNaN = false := by
  constructor
  · intro hlt
    have hnan := Binary.isNaN_of_lt hlt
    rwa [isNaN_lowerOf, isNaN_upperOf] at hnan
  · rintro ⟨hd, hu⟩
    unfold lowerOf upperOf
    split
    · next hlt => exact hlt
    · next hge => exact (Binary.lt_or_gt hd hu h).resolve_right hge

end Pair

/-! ## All bounds -/

/-- Some point with finite coordinates lies within all bounds. -/
def HasFinitePoint (R : Region p) : Prop :=
  ∃ z : List p.Entry, (∀ x ∈ z, x.isFinite = true) ∧
    List.Forall₂ (· ≤ ·) R.d.entries z ∧ List.Forall₂ (· ≤ ·) z R.u.entries

/-- Room between two bounds each is room between all of them. -/
theorem exists_between {f : FloatFormat} {ds us : List (Binary f)}
    (h : List.Forall₂ (· < ·) ds us) :
    ∃ z : List (Binary f), (∀ x ∈ z, x.isFinite = true) ∧ List.Forall₂ (· ≤ ·) ds z ∧
      List.Forall₂ (· ≤ ·) z us := by
  induction h with
  | nil => exact ⟨[], by simp, .nil, .nil⟩
  | cons hlt _ ih =>
    obtain ⟨x, hfinite, hlower, hupper⟩ := Binary.exists_finite_between hlt
    obtain ⟨z, hz, hds, hus⟩ := ih
    exact ⟨x :: z, List.forall_mem_cons.mpr ⟨hfinite, hz⟩, .cons hlower hds, .cons hupper hus⟩

theorem nanFree_of_le {f : FloatFormat} {xs ys : List (Binary f)}
    (h : List.Forall₂ (· ≤ ·) xs ys) : NaNFree xs ∧ NaNFree ys := by
  induction h with
  | nil => simp [NaNFree]
  | cons hle _ ih =>
    obtain ⟨hx, hy⟩ := Binary.isNaN_of_le hle
    exact ⟨List.forall_mem_cons.mpr ⟨hx, ih.1⟩, List.forall_mem_cons.mpr ⟨hy, ih.2⟩⟩

/-- Putting bounds in order leaves every NaN in its place. -/
theorem map_isNaN_orderBounds {f : FloatFormat} {ds us : List (Binary f)}
    (h : ds.length = us.length) :
    (List.zipWith lowerOf ds us).map Binary.isNaN = ds.map Binary.isNaN ∧
      (List.zipWith upperOf ds us).map Binary.isNaN = us.map Binary.isNaN := by
  induction ds generalizing us with
  | nil => cases us with
    | nil => exact ⟨rfl, rfl⟩
    | cons => cases h
  | cons d ds ih =>
    cases us with
    | nil => cases h
    | cons u us =>
      obtain ⟨hds, hus⟩ := ih (Nat.succ.inj h)
      simp [isNaN_lowerOf, isNaN_upperOf, hds, hus]

theorem nanFree_congr {f : FloatFormat} {xs ys : List (Binary f)}
    (h : xs.map Binary.isNaN = ys.map Binary.isNaN) : NaNFree xs ↔ NaNFree ys := by
  have hall (zs : List (Binary f)) : NaNFree zs ↔ ∀ v ∈ zs.map Binary.isNaN, v = false := by
    simp [NaNFree]
  rw [hall, hall, h]

/-- Without a NaN, bounds that nowhere agree are apart once they are in order. -/
theorem forall₂_lt {f : FloatFormat} {ds us : List (Binary f)} (h : ds.length = us.length)
    (hfixed : ∀ v ∈ List.zipWith Binary.equals ds us, v = false) (hds : NaNFree ds)
    (hus : NaNFree us) :
    List.Forall₂ (· < ·) (List.zipWith lowerOf ds us) (List.zipWith upperOf ds us) := by
  induction ds generalizing us with
  | nil => exact .nil
  | cons d ds ih =>
    cases us with
    | nil => cases h
    | cons u us =>
      rw [List.zipWith_cons_cons, List.forall_mem_cons] at hfixed
      obtain ⟨hd, hds⟩ := List.forall_mem_cons.mp hds
      obtain ⟨hu, hus⟩ := List.forall_mem_cons.mp hus
      exact .cons ((lowerOf_lt_upperOf_iff hfixed.1).mpr ⟨hd, hu⟩)
        (ih (Nat.succ.inj h) hfixed.2 hds hus)

/-- The lower bounds of a region are below the upper ones exactly where neither of the bounds
`lower` and `upper` is a NaN, and there is a finite point within them exactly when none is. -/
structure ApartWithoutNaN (R : Region p) (lower upper : List p.Entry) : Prop where
  lt_iff : ∀ (i : Nat) (x y l v : p.Entry), R.d.entries[i]? = some x → R.u.entries[i]? = some y →
    lower[i]? = some l → upper[i]? = some v → (x < y ↔ l.isNaN = false ∧ v.isNaN = false)
  point_iff : R.HasFinitePoint ↔ NaNFree lower ∧ NaNFree upper

theorem apartWithoutNaN_orderBounds [Spectrum.Routines] {R : Region p} (h : R.check = .ok ()) :
    R.orderBounds.ApartWithoutNaN R.d.entries R.u.entries := by
  obtain ⟨⟨⟩, -, hbounds⟩ := bind_eq_ok.mp h
  have hfixed := indicesWhere_eq_nil.mp (checkBounds_eq_ok.mp hbounds).1
  obtain ⟨hlower, hupper⟩ := map_isNaN_orderBounds R.length_bounds
  constructor
  case lt_iff =>
    intro i x y l v hx hy hl hv
    change (List.zipWith lowerOf R.d.entries R.u.entries)[i]? = some x at hx
    change (List.zipWith upperOf R.d.entries R.u.entries)[i]? = some y at hy
    rw [List.getElem?_zipWith, hl, hv] at hx hy
    cases hx
    cases hy
    refine lowerOf_lt_upperOf_iff (hfixed _ (List.mem_of_getElem? (i := i) ?_))
    simp [List.getElem?_zipWith, hl, hv]
  case point_iff =>
    constructor
    · rintro ⟨z, -, hle, hge⟩
      exact ⟨(nanFree_congr hlower).mp (nanFree_of_le hle).1,
        (nanFree_congr hupper).mp (nanFree_of_le hge).2⟩
    · rintro ⟨hd, hu⟩
      exact exists_between (forall₂_lt R.length_bounds hfixed hd hu)

end Region

/-- Bounds of a program that has been built are apart exactly where the bounds that it has been
given hold no NaN, and its box has a finite point exactly when they hold none at all. -/
theorem bounds_apart_iff [Spectrum.Routines] :
    (∀ (data : LinearProgram.Data) (built : Repaired (LinearProgram p)),
      LinearProgram.build p data = .ok built → ∃ n lower upper, data.count = .ok n ∧
        ConvertedBounds p n data.region.d data.region.u lower upper ∧
        built.value.toRegion.ApartWithoutNaN lower.1.entries upper.1.entries) ∧
    ∀ (data : QuadraticProgram.Data) (built : Repaired (QuadraticProgram p)),
      QuadraticProgram.build p data = .ok built → ∃ n lower upper, data.count p = .ok n ∧
        ConvertedBounds p n data.d data.u lower upper ∧
        built.value.toRegion.ApartWithoutNaN lower.1.entries upper.1.entries := by
  constructor
  · intro data built h
    obtain ⟨n, lower, upper, hn, hbounds, R, hd, hu, hcheck, hregion, -⟩ :=
      LinearProgram.exists_checked_of_settle (LinearProgram.settle_of_build h)
    refine ⟨n, lower, upper, hn, hbounds, ?_⟩
    rw [hregion, ← hd, ← hu]
    exact Region.apartWithoutNaN_orderBounds hcheck
  · intro data built h
    obtain ⟨n, lower, upper, hn, hbounds, R, hd, hu, hcheck, hregion, -⟩ :=
      QuadraticProgram.exists_checked_of_settle (QuadraticProgram.settle_of_build h)
    refine ⟨n, lower, upper, hn, hbounds, ?_⟩
    rw [hregion, ← hd, ← hu]
    exact Region.apartWithoutNaN_orderBounds hcheck

/-- Two variables with a given sum, the bounds of the first one in reverse order. -/
def LinearProgram.reversedBounds : LinearProgram.Data where
  c := .list [.integer 1, .integer 1]
  N := none
  region :=
    { A := .list [.list [.integer 1, .integer 1]]
      b := .list [.integer 1]
      G := none
      g := none
      d := some (.list [.integer 5, .integer (-1)])
      u := some (.list [.integer 1, .scalar (.real (.infinity false))]) }

theorem bounds_apart_reversed : ∃ built : Repaired (LinearProgram .standard),
    LinearProgram.build .standard LinearProgram.reversedBounds = .ok built ∧
      built.value.toRegion.HasFinitePoint := by
  have hsome :
      (LinearProgram.build .standard LinearProgram.reversedBounds).toOption.isSome = true := by
    decide +kernel
  obtain ⟨built, hbuilt⟩ := Option.isSome_iff_exists.mp hsome
  have hbuild := toOption_eq_some.mp hbuilt
  obtain ⟨n, lower, upper, hn, hbounds, hapart⟩ :=
    (bounds_apart_iff (p := .standard)).1 LinearProgram.reversedBounds built hbuild
  obtain rfl : .integer 2 = n := Except.ok.inj hn
  have hlower : NaNFree lower.1.entries := by
    have heval : (Source.vector LinearProgram.reversedBounds.region.d (.integer 2) 0 >>= fun s =>
        s.toVector Precision.standard.format "d" (.integer 2)).toOption.map
          (fun v => decide (NaNFree v.1.entries)) = some true := by
      decide +kernel
    rw [hbounds.lower] at heval
    simpa [Except.toOption] using heval
  have hupper : NaNFree upper.1.entries := by
    have heval : (Source.vector LinearProgram.reversedBounds.region.u (.integer 2)
        (.infinity false) >>= fun s =>
          s.toVector Precision.standard.format "u" (.integer 2)).toOption.map
          (fun v => decide (NaNFree v.1.entries)) = some true := by
      decide +kernel
    rw [hbounds.upper] at heval
    simpa [Except.toOption] using heval
  exact ⟨built, hbuild, hapart.point_iff.mpr ⟨hlower, hupper⟩⟩

/-- One variable, which is not to be below a NaN. -/
def LinearProgram.nanBound : LinearProgram.Data where
  c := .list [.integer 1]
  N := none
  region :=
    { A := .list [.list [.integer 1]]
      b := .list [.integer 1]
      G := none
      g := none
      d := some (.list [.scalar (.real .nan)])
      u := some (.list [.integer 2]) }

/-- A NaN among the bounds stays, and nothing lies above it. -/
theorem bounds_not_apart_nan : ∃ built : Repaired (LinearProgram .standard),
    LinearProgram.build .standard LinearProgram.nanBound = .ok built ∧
      built.value.d.entries = [.nan] ∧ built.value.u.entries = [.ofInt .double 2] ∧
      ¬ (.nan : Double) < .ofInt .double 2 ∧ ¬ built.value.toRegion.HasFinitePoint := by
  have heval : (LinearProgram.build .standard LinearProgram.nanBound).toOption.map
      (fun built => (built.value.d.entries, built.value.u.entries)) =
        some ([.nan], [.ofInt .double 2]) := by
    decide +kernel
  obtain ⟨built, hbuilt, hentries⟩ := Option.map_eq_some_iff.mp heval
  have hd : built.value.d.entries = [.nan] := congrArg Prod.fst hentries
  have hu : built.value.u.entries = [.ofInt .double 2] := congrArg Prod.snd hentries
  refine ⟨built, toOption_eq_some.mp hbuilt, hd, hu, by decide +kernel, ?_⟩
  rintro ⟨z, -, hle, -⟩
  rw [hd] at hle
  exact absurd (Region.nanFree_of_le hle).1 (by decide)

end StandardForm
