import StandardForm.Proofs.Binary.Monotone

/-!
# One number in two formats

Two numbers of different formats are the same if both are NaN, or if they agree in their sign and
are both infinite or have one value. Converting a number to a format that has it gives that number.
Every 64-bit number is also one of 80 bits, so widening loses nothing: it keeps the order, and
narrowing takes it back.
-/

namespace StandardForm

namespace FloatFormat

variable (f : FloatFormat)

/-- A magnitude is a significand times a power of two. -/
theorem exists_significand (r : ℕ) : ∃ m k, m < 2 ^ f.precision ∧ f.units r = m * 2 ^ k := by
  rw [← f.two_mul_binade]
  rcases Nat.lt_or_ge r f.binade with hlt | hge
  · exact ⟨r, 0, by omega, by rw [f.units_of_lt (by omega), pow_zero, Nat.mul_one]⟩
  · obtain ⟨k, m, hm, rfl⟩ := f.exists_binade hge
    exact ⟨f.binade + m, k, by omega, f.units_binade k m hm⟩

/-- A significand times a power of two that leaves room to normalize is a magnitude. -/
theorem exists_units {m s : ℕ} (hm : m < 2 ^ f.precision) (hs : f.precision ≤ s) :
    ∃ n, f.units n = m * 2 ^ s := by
  rcases Nat.eq_zero_or_pos m with rfl | hpos
  · exact ⟨0, by rw [f.units_zero, Nat.zero_mul]⟩
  have hlog : m.log2 < f.precision := (Nat.log2_lt hpos.ne').mpr hm
  set d := f.precision - 1 - m.log2 with hd
  have hlower : f.binade ≤ m * 2 ^ d := by
    calc f.binade = 2 ^ m.log2 * 2 ^ d := by
          rw [f.binade_eq, ← Nat.pow_add]
          congr 1
          omega
      _ ≤ m * 2 ^ d := Nat.mul_le_mul_right _ (Nat.log2_self_le hpos.ne')
  have hupper : m * 2 ^ d ≤ 2 * f.binade := by
    calc m * 2 ^ d ≤ 2 ^ (m.log2 + 1) * 2 ^ d := Nat.mul_le_mul_right _ Nat.lt_log2_self.le
      _ = 2 * f.binade := by
          rw [f.two_mul_binade, ← Nat.pow_add]
          congr 1
          omega
  refine ⟨(s - d) * f.binade + m * 2 ^ d, ?_⟩
  rw [f.units_scale hupper fun _ => hlower, Nat.mul_assoc, ← Nat.pow_add,
    Nat.add_sub_cancel' (by omega)]

/-- A format that has more bits than another one, and a range that is greater at both ends. -/
structure Wider (f g : FloatFormat) : Prop where
  precision : f.precision ≤ g.precision
  scale : g.precision + f.scale ≤ g.scale
  top : f.units f.top * g.one ≤ g.units g.top * f.one

theorem single_wider : single.Wider double := ⟨by decide, by decide, by decide +kernel⟩

theorem double_wider : double.Wider extended := ⟨by decide, by decide, by decide +kernel⟩

/-- Every finite magnitude is a finite one of a wider format. -/
theorem Wider.exists_units {f g : FloatFormat} (h : f.Wider g) {r : ℕ} (hr : r < f.top) :
    ∃ n, n < g.top ∧ g.units n * f.one = f.units r * g.one := by
  have hscale := h.scale
  obtain ⟨m, k, hm, hunits⟩ := f.exists_significand r
  obtain ⟨n, hn⟩ := g.exists_units (m := m) (s := k + (g.scale - f.scale))
    (hm.trans_le (Nat.pow_le_pow_right Nat.two_pos h.precision)) (by omega)
  have hvalue : g.units n * f.one = f.units r * g.one := by
    have hsum : k + (g.scale - f.scale) + f.scale = k + g.scale := by omega
    rw [hn, hunits, f.one_eq, g.one_eq, Nat.mul_assoc, Nat.mul_assoc, ← Nat.pow_add,
      ← Nat.pow_add, hsum]
  refine ⟨n, g.units_strictMono.lt_iff_lt.mp ?_, hvalue⟩
  refine Nat.lt_of_mul_lt_mul_right (a := f.one) ?_
  calc g.units n * f.one = f.units r * g.one := hvalue
    _ < f.units f.top * g.one := Nat.mul_lt_mul_of_pos_right (f.units_strictMono hr) g.one_pos
    _ ≤ g.units g.top * f.one := h.top

end FloatFormat

namespace Binary

variable {f g h : FloatFormat}

/-- The same number in two formats, the sign of a zero included. -/
def Same : Binary f → Binary g → Prop
  | nan, nan => True
  | num s r, num t q =>
    s = t ∧ (r.val = f.top ↔ q.val = g.top) ∧
      (r.val ≠ f.top → (num s r : Binary f).value = (num t q : Binary g).value)
  | _, _ => False

theorem value_eq_iff {s : Bool} {r : Fin (f.top + 1)} {q : Fin (g.top + 1)} :
    (num s r : Binary f).value = (num s q : Binary g).value ↔
      f.units r.val * g.one = g.units q.val * f.one := by
  have hf : (f.one : ℚ) ≠ 0 := Nat.cast_ne_zero.mpr f.one_pos.ne'
  have hg : (g.one : ℚ) ≠ 0 := Nat.cast_ne_zero.mpr g.one_pos.ne'
  have hsign : (if s then -1 else 1 : ℚ) ≠ 0 := by cases s <;> simp
  rw [value_num, value_num, mul_right_inj' hsign, div_eq_div_iff hf hg]
  exact_mod_cast Iff.rfl

namespace Same

theorem refl (x : Binary f) : x.Same x := by
  cases x with
  | nan => trivial
  | num s r => exact ⟨rfl, Iff.rfl, fun _ => rfl⟩

theorem symm {x : Binary f} {y : Binary g} (hxy : x.Same y) : y.Same x := by
  cases x with
  | nan =>
    cases y with
    | nan => trivial
    | num => cases hxy
  | num s r =>
    cases y with
    | nan => cases hxy
    | num t q =>
      obtain ⟨hsign, htop, hvalue⟩ := hxy
      exact ⟨hsign.symm, htop.symm, fun hq => (hvalue fun hr => hq (htop.mp hr)).symm⟩

theorem trans {x : Binary f} {y : Binary g} {z : Binary h} (hxy : x.Same y) (hyz : y.Same z) :
    x.Same z := by
  cases x with
  | nan =>
    cases y with
    | nan => cases z <;> trivial
    | num => cases hxy
  | num s r =>
    cases y with
    | nan => cases hxy
    | num t q =>
      cases z with
      | nan => cases hyz
      | num u k =>
        obtain ⟨hsign, htop, hvalue⟩ := hxy
        obtain ⟨hsign', htop', hvalue'⟩ := hyz
        exact ⟨hsign.trans hsign', htop.trans htop',
          fun hr => (hvalue hr).trans (hvalue' fun hq => hr (htop.mpr hq))⟩

/-- Converting a number to a format that has it gives that number. -/
theorem cast_eq {x : Binary f} {y : Binary g} (hxy : x.Same y) : x.cast g = y := by
  cases x with
  | nan =>
    cases y with
    | nan => rfl
    | num => cases hxy
  | num s r =>
    cases y with
    | nan => cases hxy
    | num t q =>
      obtain ⟨rfl, htop, hvalue⟩ := hxy
      rw [cast_num]
      refine congrArg (num s) (Fin.ext ?_)
      by_cases hr : r.val = f.top
      · rw [castRung, if_pos hr]
        exact (htop.mp hr).symm
      · rw [castRung, if_neg hr, value_eq_iff.mp (hvalue hr)]
        exact g.nearest_units (Nat.lt_succ_iff.mp q.isLt) f.one_pos

theorem isFinite_eq {x : Binary f} {y : Binary g} (hxy : x.Same y) : x.isFinite = y.isFinite := by
  cases x with
  | nan =>
    cases y with
    | nan => rfl
    | num => cases hxy
  | num s r =>
    cases y with
    | nan => cases hxy
    | num t q =>
      rw [Bool.eq_iff_iff, isFinite, isFinite, bne_iff_ne, bne_iff_ne]
      exact not_congr hxy.2.1

theorem isInfinite_eq {x : Binary f} {y : Binary g} (hxy : x.Same y) :
    x.isInfinite = y.isInfinite := by
  cases x with
  | nan =>
    cases y with
    | nan => rfl
    | num => cases hxy
  | num s r =>
    cases y with
    | nan => cases hxy
    | num t q =>
      rw [Bool.eq_iff_iff, isInfinite, isInfinite, beq_iff_eq, beq_iff_eq]
      exact hxy.2.1

theorem value_eq {x : Binary f} {y : Binary g} (hxy : x.Same y) (hx : x.isFinite = true) :
    x.value = y.value := by
  cases x with
  | nan => cases hx
  | num s r =>
    cases y with
    | nan => cases hxy
    | num t q => exact hxy.2.2 (bne_iff_ne.mp hx)

end Same

/-! ## Widening -/

theorem castRung_spec (h : f.Wider g) (r : Fin (f.top + 1)) :
    (r.val = f.top ↔ (castRung g r).val = g.top) ∧
      (r.val ≠ f.top → f.units r.val * g.one = g.units (castRung g r).val * f.one) := by
  by_cases hr : r.val = f.top
  · exact ⟨iff_of_true hr (by rw [castRung, if_pos hr]), fun h => absurd hr h⟩
  · obtain ⟨n, hn, hvalue⟩ := h.exists_units (r := r.val) (by omega)
    have hcast : (castRung g r).val = n := by
      rw [castRung, if_neg hr, ← hvalue]
      exact g.nearest_units hn.le f.one_pos
    exact ⟨iff_of_false hr (by omega), fun _ => by rw [hcast, hvalue]⟩

/-- Converting a number to a wider format loses nothing. -/
theorem same_cast (h : f.Wider g) (x : Binary f) : x.Same (x.cast g) := by
  cases x with
  | nan => trivial
  | num s r =>
    obtain ⟨htop, hvalue⟩ := castRung_spec h r
    rw [cast_num]
    exact ⟨rfl, htop, fun hr => value_eq_iff.mpr (hvalue hr)⟩

def widen (x : Double) : Binary .extended := x.cast .extended

variable {x y : Double}

theorem same_widen (x : Double) : x.Same (widen x) := same_cast FloatFormat.double_wider x

/-- Narrowing takes widening back. -/
@[simp] theorem cast_widen (x : Double) : (widen x).cast .double = x := (same_widen x).symm.cast_eq

theorem Same.eq_widen {y : Binary .extended} (hxy : x.Same y) : y = widen x := hxy.cast_eq.symm

@[simp] theorem isFinite_widen (x : Double) : (widen x).isFinite = x.isFinite :=
  (same_widen x).isFinite_eq.symm

@[simp] theorem isInfinite_widen (x : Double) : (widen x).isInfinite = x.isInfinite :=
  (same_widen x).isInfinite_eq.symm

theorem castRung_extended_strictMono {r q : Fin (FloatFormat.double.top + 1)} (hrq : r.val < q.val) :
    (castRung .extended r).val < (castRung .extended q).val := by
  have hq := q.isLt
  obtain ⟨hrtop, hrvalue⟩ := castRung_spec FloatFormat.double_wider r
  obtain ⟨hqtop, hqvalue⟩ := castRung_spec FloatFormat.double_wider q
  have hrlt := (castRung .extended r).isLt
  by_cases htop : q.val = FloatFormat.double.top
  · have := hqtop.mp htop
    have : (castRung .extended r).val ≠ FloatFormat.extended.top := fun h => by
      have := hrtop.mpr h
      omega
    omega
  · refine FloatFormat.extended.units_strictMono.lt_iff_lt.mp ?_
    refine Nat.lt_of_mul_lt_mul_right (a := FloatFormat.double.one) ?_
    rw [← hrvalue (by omega), ← hqvalue htop]
    exact Nat.mul_lt_mul_of_pos_right (FloatFormat.double.units_strictMono hrq)
      FloatFormat.extended.one_pos

theorem castRung_extended_eq_zero_iff {r : Fin (FloatFormat.double.top + 1)} :
    (castRung .extended r).val = 0 ↔ r.val = 0 := by
  refine ⟨fun h => ?_, castRung_eq_zero⟩
  by_contra hr
  have hlt := castRung_extended_strictMono (r := ⟨0, Nat.succ_pos _⟩) (Nat.pos_of_ne_zero hr)
  omega

theorem position_widen_lt_iff {s t : Bool} {r q : Fin (FloatFormat.double.top + 1)} :
    position s (castRung .extended r).val < position t (castRung .extended q).val ↔
      position s r.val < position t q.val := by
  have hlt := castRung_extended_strictMono (r := r) (q := q)
  have hgt := castRung_extended_strictMono (r := q) (q := r)
  have heq : r.val = q.val →
      (castRung .extended r).val = (castRung .extended q).val := fun h => by rw [Fin.ext h]
  have hr := castRung_extended_eq_zero_iff (r := r)
  have hq := castRung_extended_eq_zero_iff (r := q)
  cases s <;> cases t <;> simp only [position, Bool.false_eq_true, if_true, if_false] <;> omega

/-- Widened numbers stand in the order of the numbers. -/
@[simp] theorem lt_widen (x y : Double) : (widen x).lt (widen y) = x.lt y := by
  cases x with
  | nan => rfl
  | num s r =>
    cases y with
    | nan => rw [widen, widen, cast_num]; rfl
    | num t q =>
      rw [widen, widen, cast_num, cast_num, lt, lt, Bool.eq_iff_iff, decide_eq_true_iff,
        decide_eq_true_iff]
      exact position_widen_lt_iff

@[simp] theorem equals_widen (x y : Double) : (widen x).equals (widen y) = x.equals y := by
  cases x with
  | nan => rfl
  | num s r =>
    cases y with
    | nan => rw [widen, widen, cast_num]; rfl
    | num t q =>
      have hlt := position_widen_lt_iff (s := s) (t := t) (r := r) (q := q)
      have hgt := position_widen_lt_iff (s := t) (t := s) (r := q) (q := r)
      rw [widen, widen, cast_num, cast_num, equals, equals, Bool.eq_iff_iff, beq_iff_eq, beq_iff_eq]
      omega

/-! ## Numbers out of exact values -/

/-- The number of a fraction that is a magnitude of the format. -/
theorem ofFraction_eq {r : Fin (f.top + 1)} {num den : ℕ} (s : Bool) (hden : 0 < den)
    (hvalue : f.units r.val * den = num * f.one) : ofFraction f s num den = Binary.num s r := by
  rw [ofFraction, ← hvalue]
  exact round_units s r hden

/-- An integer that is a 64-bit number becomes the widened number with 80 bits. -/
theorem ofInt_extended {n : ℤ} (hx : x.Represents n) :
    ofInt .extended n = widen (ofInt .double n) := by
  cases x with
  | nan => cases hx.1
  | num s r =>
    have hr : r.val ≠ FloatFormat.double.top := bne_iff_ne.mp hx.1
    have hone : (FloatFormat.double.one : ℚ) ≠ 0 :=
      Nat.cast_ne_zero.mpr FloatFormat.double.one_pos.ne'
    have hunits : FloatFormat.double.units r.val * 1 = n.natAbs * FloatFormat.double.one := by
      have hvalue : |(num s r : Double).value| = |(n : ℚ)| := by rw [hx.2]
      rw [abs_value_num, div_eq_iff hone, ← Int.cast_abs, ← Nat.cast_natAbs] at hvalue
      rw [Nat.mul_one]
      exact_mod_cast hvalue
    have hextended : FloatFormat.extended.units (castRung .extended r).val * 1 =
        n.natAbs * FloatFormat.extended.one := by
      refine Nat.eq_of_mul_eq_mul_right FloatFormat.double.one_pos ?_
      rw [Nat.mul_one, ← (castRung_spec FloatFormat.double_wider r).2 hr,
        ← Nat.mul_one (FloatFormat.double.units _),
        hunits]
      ring
    rw [ofInt, ofInt, ofFraction_eq _ Nat.one_pos hunits, ofFraction_eq _ Nat.one_pos hextended,
      widen, cast_num]

end Binary

end StandardForm
