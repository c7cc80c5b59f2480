import StandardForm.Proofs.Binary.Scaling
import StandardForm.Proofs.Binary.SquareRoot
import StandardForm.Proofs.Binary.Widening

/-!
# Signed multiples by powers of two

A number of any kind and its multiple by a power of two, or by the negative of one: a NaN goes with
a NaN, an infinite number with an infinite one, and the sign of a zero does not count. Every
operation takes such multiples to such multiples, with the exponents of the factors added in a
product and halved in a square root. If the exponent of the result is not zero, neither of the two
results may overflow, and a product or a conversion may not underflow either: an exact result below
the least normal magnitude must not be rounded. If it is zero, both results are rounded alike.
-/

namespace StandardForm

namespace FloatFormat

/-- The magnitude on rung `q` is `2 ^ k` times that on rung `r`, and infinity goes with infinity. -/
structure Spans (f : FloatFormat) (k : ℤ) (r q : ℕ) : Prop where
  top_iff : r = f.top ↔ q = f.top
  units_eq : r ≠ f.top → (f.units q : ℚ) = 2 ^ k * f.units r

instance (f : FloatFormat) (k : ℤ) (r q : ℕ) : Decidable (f.Spans k r q) :=
  decidable_of_iff (_ ∧ _) ⟨fun ⟨h, h'⟩ => ⟨h, h'⟩, fun ⟨h, h'⟩ => ⟨h, h'⟩⟩

/-- The fraction `num / den` is rounded to a finite magnitude, in the same way at every scale. -/
def InRange (f : FloatFormat) (num den : ℕ) : Prop :=
  (f.nearest num den).val ≠ f.top ∧ f.Scalable num den

variable {f : FloatFormat} {k : ℤ} {r r' q q' : ℕ}

theorem ne_zero_of_eq_top (h : r = f.top) : r ≠ 0 := fun h0 => f.top_ne_zero (h ▸ h0)

namespace Spans

theorem refl (r : ℕ) : f.Spans 0 r r := ⟨Iff.rfl, fun _ => by rw [zpow_zero, one_mul]⟩

theorem symm (h : f.Spans k r q) : f.Spans (-k) q r := by
  refine ⟨h.top_iff.symm, fun hq => ?_⟩
  rw [h.units_eq fun hr => hq (h.top_iff.mp hr), ← mul_assoc, ← zpow_add₀ two_ne_zero,
    neg_add_cancel, zpow_zero, one_mul]

theorem eq_zero (h : f.Spans k r q) (hr : r = 0) : q = 0 := by
  have hunits := h.units_eq (hr ▸ f.top_ne_zero.symm)
  rw [hr, f.units_zero, Nat.cast_zero, mul_zero] at hunits
  exact Binary.units_eq_zero_iff.mp (by exact_mod_cast hunits)

theorem zero_iff (h : f.Spans k r q) : r = 0 ↔ q = 0 := ⟨h.eq_zero, h.symm.eq_zero⟩

theorem ne_top (h : f.Spans k r q) (hr : r ≠ f.top) : q ≠ f.top := mt h.top_iff.mpr hr

theorem ne_zero (h : f.Spans k r q) (hr : r ≠ 0) : q ≠ 0 := mt h.zero_iff.mpr hr

theorem le_of_le (h : f.Spans k r r') (h' : f.Spans k q q') (hr' : r' ≤ f.top) (hq : q ≤ f.top)
    (hle : r ≤ q) : r' ≤ q' := by
  by_cases htop : q = f.top
  · exact h'.top_iff.mp htop ▸ hr'
  · have hr : r ≠ f.top := by omega
    have hpow : (0 : ℚ) < 2 ^ k := by positivity
    have hunits : (f.units r : ℚ) ≤ f.units q := Nat.cast_le.mpr (f.units_strictMono.monotone hle)
    refine f.units_strictMono.le_iff_le.mp (Nat.cast_le (α := ℚ).mp ?_)
    rw [h.units_eq hr, h'.units_eq htop]
    exact mul_le_mul_of_nonneg_left hunits hpow.le

/-- Multiples by one factor stand in the order of the magnitudes. -/
theorem le_iff (h : f.Spans k r r') (h' : f.Spans k q q') (hr : r ≤ f.top) (hr' : r' ≤ f.top)
    (hq : q ≤ f.top) (hq' : q' ≤ f.top) : r ≤ q ↔ r' ≤ q' :=
  ⟨h.le_of_le h' hr' hq, h.symm.le_of_le h'.symm hr hq'⟩

end Spans

/-- Rounding commutes with a power of two that is not less than one. -/
theorem spans_nearest_natCast {num den num' den' : ℕ} (k : ℕ) (hden : 0 < den) (hden' : 0 < den')
    (hmul : num' * den = 2 ^ k * (num * den'))
    (hrange : k ≠ 0 → f.InRange num den ∧ f.InRange num' den') :
    f.Spans k (f.nearest num den).val (f.nearest num' den').val := by
  have hnearest : f.nearest num' den' = f.nearest (2 ^ k * num) den := by
    rw [← f.nearest_mul num' den' den hden, hmul, ← Nat.mul_assoc, Nat.mul_comm den' den]
    exact f.nearest_mul (2 ^ k * num) den den' hden'
  by_cases hk : k = 0
  · subst hk
    rw [hnearest, pow_zero, Nat.one_mul]
    exact Spans.refl _
  · obtain ⟨⟨htop, hscalable⟩, htop', -⟩ := hrange hk
    refine ⟨iff_of_false htop htop', fun _ => ?_⟩
    rw [hnearest] at htop' ⊢
    rw [f.units_nearest_mul_pow k hden hscalable htop', zpow_natCast]
    push_cast
    rfl

/-- Rounding commutes with a power of two. -/
theorem spans_nearest {num den num' den' : ℕ} (hden : 0 < den) (hden' : 0 < den')
    (hmul : (num' * den : ℚ) = 2 ^ k * (num * den'))
    (hrange : k ≠ 0 → f.InRange num den ∧ f.InRange num' den') :
    f.Spans k (f.nearest num den).val (f.nearest num' den').val := by
  obtain ⟨k, rfl | rfl⟩ := k.eq_nat_or_neg
  · rw [zpow_natCast] at hmul
    exact spans_nearest_natCast k hden hden' (by exact_mod_cast hmul) fun hk =>
      hrange (by exact_mod_cast hk)
  · have hpow : (2 : ℚ) ^ k ≠ 0 := pow_ne_zero k two_ne_zero
    rw [zpow_neg, zpow_natCast, eq_inv_mul_iff_mul_eq₀ hpow] at hmul
    refine (spans_nearest_natCast k hden' hden (by exact_mod_cast hmul.symm) fun hk => ?_).symm
    exact (hrange (by simpa using hk)).symm

end FloatFormat

namespace Binary

variable {f g : FloatFormat} {k l : ℤ} {s t : Bool} {x x' y y' : Binary f}

/-- The number `y` is `2 ^ k` times `x`, with the other sign if `s`. -/
def Multiple (k : ℤ) (s : Bool) : (x y : Binary f) → Prop
  | nan, nan => True
  | num t r, num u q => f.Spans k r.val q.val ∧ (r.val ≠ 0 → u = (s != t))
  | _, _ => False

instance (k : ℤ) (s : Bool) : (x y : Binary f) → Decidable (Multiple k s x y)
  | nan, nan => .isTrue trivial
  | num _ r, num _ q => inferInstanceAs (Decidable (f.Spans k r.val q.val ∧ _))
  | nan, num _ _ | num _ _, nan => .isFalse id

/-! ## Operations that neither overflow nor underflow -/

/-- A result `x` is finite, and it is exact unless the exact one `q` is as great as the least normal
magnitude. -/
def Regular (x : Binary f) (q : ℚ) : Prop :=
  x.isFinite = true ∧ (x.value = q ∨ f.binade / f.one ≤ |q|)

/-- A product of finite numbers neither overflows nor underflows. -/
def RegularProduct (x y : Binary f) : Prop :=
  x.isFinite = true → y.isFinite = true → (x * y).Regular (x.value * y.value)

/-- A sum of finite numbers does not overflow. -/
def RegularSum (x y : Binary f) : Prop :=
  x.isFinite = true → y.isFinite = true → (x + y).isFinite = true

/-- A finite number neither overflows nor underflows as one of another format. -/
def RegularCast (g : FloatFormat) (x : Binary f) : Prop :=
  x.isFinite = true → (x.cast g).Regular x.value

instance (x : Binary f) (q : ℚ) : Decidable (x.Regular q) := inferInstanceAs (Decidable (_ ∧ _))

instance (x y : Binary f) : Decidable (RegularProduct x y) := inferInstanceAs (Decidable (_ → _))

instance (x y : Binary f) : Decidable (RegularSum x y) := inferInstanceAs (Decidable (_ → _))

instance (g : FloatFormat) (x : Binary f) : Decidable (RegularCast g x) :=
  inferInstanceAs (Decidable (_ → _))

/-- A fraction of units is as great as the least normal magnitude if its integer part is. -/
theorem binade_le_abs_iff {num den : ℕ} {q : ℚ} (hden : 0 < den) (hq : |q| = num / den / f.one) :
    (f.binade / f.one : ℚ) ≤ |q| ↔ f.binade ≤ num / den := by
  have hone : (0 : ℚ) < f.one := Nat.cast_pos.mpr f.one_pos
  have hpos : (0 : ℚ) < den := Nat.cast_pos.mpr hden
  rw [hq, div_le_div_iff_of_pos_right hone, le_div_iff₀ hpos, Nat.le_div_iff_mul_le hden]
  exact_mod_cast Iff.rfl

theorem Regular.inRange {s : Bool} {num den : ℕ} {q : ℚ} (hden : 0 < den)
    (h : (round s num den : Binary f).Regular q) (hq : |q| = num / den / f.one) :
    f.InRange num den := by
  refine ⟨bne_iff_ne.mp h.1, ?_⟩
  rcases h.2 with hvalue | hnormal
  · exact .inl (units_nearest_of_value hden hvalue hq)
  · exact .inr ((binade_le_abs_iff hden hq).mp hnormal)

theorem RegularProduct.inRange {s t : Bool} {r q : Fin (f.top + 1)}
    (h : RegularProduct (num s r : Binary f) (num t q)) (hr : r.val ≠ f.top) (hq : q.val ≠ f.top) :
    f.InRange (f.units r.val * f.units q.val) f.one := by
  have hregular := h (bne_iff_ne.mpr hr) (bne_iff_ne.mpr hq)
  rw [mul_num_of_finite hr hq] at hregular
  refine hregular.inRange f.one_pos ?_
  rw [abs_mul, abs_value_num, abs_value_num]
  push_cast
  ring

theorem RegularSum.nearest_ne_top {s t : Bool} {r q : Fin (f.top + 1)}
    (h : RegularSum (num s r : Binary f) (num t q)) (hr : r.val ≠ f.top) (hq : q.val ≠ f.top)
    (hne : signedUnits (f := f) s r.val + signedUnits (f := f) t q.val ≠ 0) :
    (f.nearest (signedUnits (f := f) s r.val + signedUnits (f := f) t q.val).natAbs 1).val ≠
      f.top := by
  have hsum := h (bne_iff_ne.mpr hr) (bne_iff_ne.mpr hq)
  rw [add_num _ _ _ _ hr hq] at hsum
  dsimp only at hsum
  rw [if_neg hne] at hsum
  exact bne_iff_ne.mp hsum

theorem RegularCast.inRange {s : Bool} {r : Fin (f.top + 1)}
    (h : RegularCast g (num s r : Binary f)) (hr : r.val ≠ f.top) :
    g.InRange (f.units r.val * g.one) f.one := by
  have hregular := h (bne_iff_ne.mpr hr)
  simp only [cast, if_neg hr, ofFraction] at hregular
  have hone : (g.one : ℚ) ≠ 0 := Nat.cast_ne_zero.mpr g.one_pos.ne'
  refine hregular.inRange f.one_pos ?_
  rw [abs_value_num]
  push_cast
  field_simp

/-- Nothing is lost in a wider format. -/
theorem regularCast_of_wider (h : f.Wider g) (x : Binary f) : RegularCast g x := by
  intro hx
  have hsame := same_cast h x
  exact ⟨hsame.isFinite_eq ▸ hx, .inl (hsame.value_eq hx).symm⟩

theorem regularCast_self (x : Binary f) : RegularCast f x := by
  intro hx
  rw [cast_self]
  exact ⟨hx, .inl rfl⟩

namespace Multiple

/-! ## Kinds of numbers -/

theorem nan_or_num (h : Multiple k s x x') :
    (x = nan ∧ x' = nan) ∨ ∃ u r u' r', x = num u r ∧ x' = num u' r' := by
  cases x with
  | nan =>
    cases x' with
    | nan => exact .inl ⟨rfl, rfl⟩
    | num => cases h
  | num u r =>
    cases x' with
    | nan => cases h
    | num u' r' => exact .inr ⟨u, r, u', r', rfl, rfl⟩

theorem refl (x : Binary f) : Multiple 0 false x x := by
  cases x with
  | nan => trivial
  | num s r => exact ⟨.refl _, fun _ => (Bool.false_bne s).symm⟩

theorem isNaN_eq (h : Multiple k s x x') : x'.isNaN = x.isNaN := by
  obtain ⟨rfl, rfl⟩ | ⟨u, r, u', r', rfl, rfl⟩ := h.nan_or_num
  · rfl
  · rfl

theorem isZero_eq (h : Multiple k s x x') : x'.isZero = x.isZero := by
  obtain ⟨rfl, rfl⟩ | ⟨u, r, u', r', rfl, rfl⟩ := h.nan_or_num
  · rfl
  · exact Bool.eq_iff_iff.mpr (by simpa [isZero] using h.1.zero_iff.symm)

/-- Zeros are multiples of each other by any factor, of either sign. -/
theorem zeroOf {u u' : Bool} : Multiple k s (Binary.zeroOf u : Binary f) (Binary.zeroOf u') :=
  ⟨⟨Iff.rfl, fun _ => by simp [f.units_zero]⟩, fun h => absurd rfl h⟩

protected theorem zero : Multiple k s (0 : Binary f) 0 := zeroOf

theorem neg (h : Multiple k s x x') : Multiple k s (-x) (-x') := by
  obtain ⟨rfl, rfl⟩ | ⟨u, r, u', r', rfl, rfl⟩ := h.nan_or_num
  · trivial
  · refine ⟨h.1, fun hr => ?_⟩
    rw [h.2 hr, Bool.bne_not]

theorem abs (h : Multiple k s x x') : Multiple k false x.abs x'.abs := by
  obtain ⟨rfl, rfl⟩ | ⟨u, r, u', r', rfl, rfl⟩ := h.nan_or_num
  · trivial
  · exact ⟨h.1, fun _ => rfl⟩

/-! ## Order -/

theorem position_eq {s s' : Bool} {r r' : Fin (f.top + 1)}
    (h : Multiple k false (num s r) (num s' r')) : position s' r'.val = position s r'.val := by
  by_cases hr : r.val = 0
  · rw [h.1.zero_iff.mp hr]
    cases s <;> cases s' <;> rfl
  · rw [h.2 hr, Bool.false_bne]

/-- Multiples by one positive factor stand in the order of the numbers. -/
theorem position_le_iff {s s' t t' : Bool} {r r' q q' : Fin (f.top + 1)}
    (hx : Multiple k false (num s r) (num s' r')) (hy : Multiple k false (num t q) (num t' q')) :
    position s r.val ≤ position t q.val ↔ position s' r'.val ≤ position t' q'.val := by
  have hr := hx.1.zero_iff
  have hq := hy.1.zero_iff
  have hle := hx.1.le_iff hy.1 (by omega) (by omega) (by omega) (by omega)
  have hge := hy.1.le_iff hx.1 (by omega) (by omega) (by omega) (by omega)
  rw [hx.position_eq, hy.position_eq]
  cases s <;> cases t <;> simp only [position, if_true, Bool.false_eq_true, if_false] <;> omega

theorem le_iff (hx : Multiple k false x x') (hy : Multiple k false y y') : x ≤ y ↔ x' ≤ y' := by
  obtain ⟨rfl, rfl⟩ | ⟨s, r, s', r', rfl, rfl⟩ := hx.nan_or_num
  · exact Iff.rfl
  obtain ⟨rfl, rfl⟩ | ⟨t, q, t', q', rfl, rfl⟩ := hy.nan_or_num
  · exact Iff.rfl
  rw [num_le_num_iff, num_le_num_iff]
  exact position_le_iff hx hy

theorem lt_iff (hx : Multiple k false x x') (hy : Multiple k false y y') : x < y ↔ x' < y' := by
  obtain ⟨rfl, rfl⟩ | ⟨s, r, s', r', rfl, rfl⟩ := hx.nan_or_num
  · exact Iff.rfl
  obtain ⟨rfl, rfl⟩ | ⟨t, q, t', q', rfl, rfl⟩ := hy.nan_or_num
  · exact Iff.rfl
  change decide _ = true ↔ decide _ = true
  rw [decide_eq_true_iff, decide_eq_true_iff, ← not_le, ← not_le]
  exact not_congr (position_le_iff hy hx)

/-! ## Operations -/

/-- Fractions in the ratio `2 ^ k`, rounded. -/
theorem round {num den num' den' : ℕ} {u u' : Bool} (hden : 0 < den) (hden' : 0 < den')
    (hmul : (num' * den : ℚ) = 2 ^ k * (num * den'))
    (hrange : k ≠ 0 → f.InRange num den ∧ f.InRange num' den')
    (hsign : num ≠ 0 → u' = (s != u)) :
    Multiple k s (Binary.round u num den : Binary f) (Binary.round u' num' den') := by
  refine ⟨FloatFormat.spans_nearest hden hden' hmul hrange, fun hr => hsign ?_⟩
  rintro rfl
  exact hr (f.nearest_zero hden)

protected theorem infinity {u u' : Bool} (h : u' = (s != u)) :
    Multiple k s (infinity u : Binary f) (infinity u') :=
  ⟨⟨Iff.rfl, fun h => absurd rfl h⟩, fun _ => h⟩

theorem bne_signs {u u' v v' : Bool} (hu : u' = (s != u)) (hv : v' = (t != v)) :
    (u' != v') = ((s != t) != (u != v)) := by
  subst hu hv
  cases s <;> cases t <;> cases u <;> cases v <;> rfl

/-- The exponents of the factors are added in a product. -/
theorem mul (hx : Multiple k s x x') (hy : Multiple l t y y')
    (hregular : k + l ≠ 0 → RegularProduct x y ∧ RegularProduct x' y') :
    Multiple (k + l) (s != t) (x * y) (x' * y') := by
  obtain ⟨rfl, rfl⟩ | ⟨u, r, u', r', rfl, rfl⟩ := hx.nan_or_num
  · cases y <;> cases y' <;> trivial
  obtain ⟨rfl, rfl⟩ | ⟨v, q, v', q', rfl, rfl⟩ := hy.nan_or_num
  · trivial
  have hsign (hr : r.val ≠ 0) (hq : q.val ≠ 0) : (u' != v') = ((s != t) != (u != v)) :=
    bne_signs (hx.2 hr) (hy.2 hq)
  have hr0 := hx.1.zero_iff
  have hq0 := hy.1.zero_iff
  by_cases htop : r.val = f.top ∨ q.val = f.top
  · have htop' : r'.val = f.top ∨ q'.val = f.top := htop.imp hx.1.top_iff.mp hy.1.top_iff.mp
    by_cases hzero : r.val = 0 ∨ q.val = 0
    · rw [mul_num_of_undefined htop hzero, mul_num_of_undefined htop' (by omega)]
      trivial
    · rw [not_or] at hzero
      rw [mul_num_of_infinite htop hzero.1 hzero.2,
        mul_num_of_infinite htop' (by omega) (by omega)]
      exact .infinity (hsign hzero.1 hzero.2)
  · rw [not_or] at htop
    obtain ⟨hr, hq⟩ := htop
    have hr' : r'.val ≠ f.top := hx.1.ne_top hr
    have hq' : q'.val ≠ f.top := hy.1.ne_top hq
    rw [mul_num_of_finite hr hq, mul_num_of_finite hr' hq']
    refine .round f.one_pos f.one_pos ?_ (fun hk => ?_) fun hne => ?_
    · push_cast
      rw [hx.1.units_eq hr, hy.1.units_eq hq, zpow_add₀ two_ne_zero]
      ring
    · obtain ⟨h, h'⟩ := hregular hk
      exact ⟨h.inRange hr hq, h'.inRange hr' hq'⟩
    · refine hsign (fun h => hne ?_) fun h => hne ?_
      · rw [h, f.units_zero, Nat.zero_mul]
      · rw [h, f.units_zero, Nat.mul_zero]

theorem signedUnits_eq {u u' : Bool} {r r' : Fin (f.top + 1)}
    (h : Multiple k s (num u r) (num u' r')) (hr : r.val ≠ f.top) :
    (signedUnits (f := f) u' r'.val : ℚ) =
      (if s then -1 else 1) * (2 ^ k * signedUnits (f := f) u r.val) := by
  have hunits := h.1.units_eq hr
  by_cases h0 : r.val = 0
  · rw [h.1.zero_iff.mp h0, h0]
    cases u <;> cases u' <;> simp [signedUnits, f.units_zero]
  · rw [h.2 h0]
    cases s <;> cases u <;> simp [signedUnits, hunits]

theorem decide_neg_eq {sum sum' : ℤ} (hne : sum ≠ 0)
    (h : (sum' : ℚ) = (if s then -1 else 1) * (2 ^ k * sum)) :
    decide (sum' < 0) = (s != decide (sum < 0)) := by
  have hpow : (0 : ℚ) < 2 ^ k := by positivity
  cases s with
  | false =>
    have hiff : (sum' : ℚ) < 0 ↔ (sum : ℚ) < 0 := by
      rw [h, if_neg Bool.false_ne_true, one_mul]
      exact ⟨fun hlt => by nlinarith, fun hlt => mul_neg_of_pos_of_neg hpow hlt⟩
    rw [Bool.false_bne]
    exact decide_eq_decide.mpr (by exact_mod_cast hiff)
  | true =>
    have hiff : (sum' : ℚ) < 0 ↔ ¬ (sum : ℚ) < 0 := by
      have hne : (sum : ℚ) ≠ 0 := Int.cast_ne_zero.mpr hne
      rw [h, if_pos rfl, neg_one_mul, neg_lt_zero, mul_pos_iff_of_pos_left hpow, not_lt]
      exact ⟨fun h => h.le, fun h => h.lt_of_ne' hne⟩
    rw [Bool.true_bne, ← decide_not]
    exact decide_eq_decide.mpr (by exact_mod_cast hiff)

/-- Exact sums of which one is a multiple of the other, rounded. -/
theorem roundSum {sum sum' : ℤ} {u u' : Bool}
    (h : (sum' : ℚ) = (if s then -1 else 1) * (2 ^ k * sum))
    (hfinite : k ≠ 0 → (sum ≠ 0 → (f.nearest sum.natAbs 1).val ≠ f.top) ∧
      (sum' ≠ 0 → (f.nearest sum'.natAbs 1).val ≠ f.top)) :
    Multiple k s
      (if sum = 0 then Binary.zeroOf u else Binary.round (sum < 0) sum.natAbs 1 : Binary f)
      (if sum' = 0 then Binary.zeroOf u' else Binary.round (sum' < 0) sum'.natAbs 1) := by
  by_cases hzero : sum = 0
  · have hzero' : sum' = 0 := by
      rw [hzero, Int.cast_zero, mul_zero, mul_zero] at h
      exact_mod_cast h
    rw [if_pos hzero, if_pos hzero']
    exact .zeroOf
  · have hpow : (0 : ℚ) < 2 ^ k := by positivity
    have habs : (sum'.natAbs : ℚ) = 2 ^ k * sum.natAbs := by
      rw [Nat.cast_natAbs, Nat.cast_natAbs, Int.cast_abs, Int.cast_abs, h, abs_mul, abs_mul,
        abs_of_pos hpow]
      cases s <;> simp
    have hzero' : sum' ≠ 0 := by
      rintro rfl
      rw [Int.natAbs_zero, Nat.cast_zero, eq_comm, mul_eq_zero_iff_left hpow.ne'] at habs
      exact hzero (Int.natAbs_eq_zero.mp (by exact_mod_cast habs))
    rw [if_neg hzero, if_neg hzero']
    refine .round Nat.one_pos Nat.one_pos (by rw [habs]; ring) (fun hk => ?_) fun _ => ?_
    · obtain ⟨htop, htop'⟩ := hfinite hk
      exact ⟨⟨htop hzero, f.scalable_one _⟩, htop' hzero', f.scalable_one _⟩
    · exact decide_neg_eq hzero h

/-- A sum of finite multiples by one factor. -/
theorem add_num {u u' v v' : Bool} {r r' q q' : Fin (f.top + 1)}
    (hx : Multiple k s (num u r) (num u' r')) (hy : Multiple k s (num v q) (num v' q'))
    (hr : r.val ≠ f.top) (hq : q.val ≠ f.top)
    (hregular : k ≠ 0 → RegularSum (num u r : Binary f) (num v q) ∧
      RegularSum (num u' r' : Binary f) (num v' q')) :
    Multiple k s (num u r + num v q : Binary f) (num u' r' + num v' q') := by
  have hr' : r'.val ≠ f.top := hx.1.ne_top hr
  have hq' : q'.val ≠ f.top := hy.1.ne_top hq
  rw [Binary.add_num _ _ _ _ hr hq, Binary.add_num _ _ _ _ hr' hq']
  have hmul : ((signedUnits (f := f) u' r'.val + signedUnits (f := f) v' q'.val : ℤ) : ℚ) =
      (if s then -1 else 1) *
        (2 ^ k * ((signedUnits (f := f) u r.val + signedUnits (f := f) v q.val : ℤ) : ℚ)) := by
    push_cast
    rw [hx.signedUnits_eq hr, hy.signedUnits_eq hq]
    ring
  exact .roundSum hmul fun hk =>
    ⟨(hregular hk).1.nearest_ne_top hr hq, (hregular hk).2.nearest_ne_top hr' hq'⟩

/-- A sum of multiples by one factor. -/
theorem add (hx : Multiple k s x x') (hy : Multiple k s y y')
    (hregular : k ≠ 0 → RegularSum x y ∧ RegularSum x' y') :
    Multiple k s (x + y) (x' + y') := by
  obtain ⟨rfl, rfl⟩ | ⟨u, r, u', r', rfl, rfl⟩ := hx.nan_or_num
  · cases y <;> cases y' <;> trivial
  obtain ⟨rfl, rfl⟩ | ⟨v, q, v', q', rfl, rfl⟩ := hy.nan_or_num
  · trivial
  by_cases hr : r.val = f.top
  · have hr' := hx.1.top_iff.mp hr
    have hu := hx.2 (FloatFormat.ne_zero_of_eq_top hr)
    change Multiple k s (Binary.add _ _) (Binary.add _ _)
    simp only [Binary.add, hr, hr', if_true]
    -- Only infinite terms of opposite signs have no sum.
    by_cases hopposite : q.val = f.top ∧ u ≠ v
    · have hopposite' : q'.val = f.top ∧ u' ≠ v' := by
        have hv := hy.2 (FloatFormat.ne_zero_of_eq_top hopposite.1)
        refine ⟨hy.1.top_iff.mp hopposite.1, ?_⟩
        rw [hu, hv]
        simpa using hopposite.2
      rw [if_pos hopposite, if_pos hopposite']
      trivial
    · have hopposite' : ¬ (q'.val = f.top ∧ u' ≠ v') := by
        rintro ⟨hq', hne⟩
        have hq := hy.1.top_iff.mpr hq'
        rw [hu, hy.2 (FloatFormat.ne_zero_of_eq_top hq)] at hne
        exact hopposite ⟨hq, by simpa using hne⟩
      rw [if_neg hopposite, if_neg hopposite']
      exact hx
  · by_cases hq : q.val = f.top
    · have hr' : r'.val ≠ f.top := hx.1.ne_top hr
      have hq' := hy.1.top_iff.mp hq
      change Multiple k s (Binary.add _ _) (Binary.add _ _)
      simp only [Binary.add, hr, hr', hq, hq', if_true, if_false]
      exact hy
    · exact hx.add_num hy hr hq hregular

/-- A difference of multiples by one factor. -/
theorem sub (hx : Multiple k s x x') (hy : Multiple k s y y')
    (hregular : k ≠ 0 → RegularSum x (-y) ∧ RegularSum x' (-y')) :
    Multiple k s (x - y) (x' - y') :=
  hx.add hy.neg hregular

/-- A quotient of multiples by factors of one size. -/
theorem div (hx : Multiple k s x x') (hy : Multiple k t y y') (hzero : y.isZero = false) :
    Multiple 0 (s != t) (x / y) (x' / y') := by
  obtain ⟨rfl, rfl⟩ | ⟨u, r, u', r', rfl, rfl⟩ := hx.nan_or_num
  · cases y <;> cases y' <;> trivial
  obtain ⟨rfl, rfl⟩ | ⟨v, q, v', q', rfl, rfl⟩ := hy.nan_or_num
  · trivial
  have hq0 : q.val ≠ 0 := beq_eq_false_iff_ne.mp hzero
  have hq0' : q'.val ≠ 0 := hy.1.ne_zero hq0
  have hsign (hr : r.val ≠ 0) : (u' != v') = ((s != t) != (u != v)) :=
    bne_signs (hx.2 hr) (hy.2 hq0)
  change Multiple 0 _ (Binary.div _ _) (Binary.div _ _)
  simp only [Binary.div, hx.1.top_iff, hy.1.top_iff, hq0, hq0', if_false]
  by_cases hr' : r'.val = f.top
  · by_cases hq' : q'.val = f.top
    · simp only [hr', hq', if_true]
      trivial
    · simp only [hr', hq', if_true, if_false]
      exact .infinity (hsign (FloatFormat.ne_zero_of_eq_top (hx.1.top_iff.mpr hr')))
  · by_cases hq' : q'.val = f.top
    · simp only [hr', hq', if_true, if_false]
      exact .zeroOf
    · simp only [hr', hq', if_false]
      have hr : r.val ≠ f.top := fun h => hr' (hx.1.top_iff.mp h)
      have hq : q.val ≠ f.top := fun h => hq' (hy.1.top_iff.mp h)
      refine .round (units_pos hq0) (units_pos hq0') ?_ (fun hk => absurd rfl hk) fun hne => ?_
      · push_cast
        rw [hx.1.units_eq hr, hy.1.units_eq hq]
        ring
      · refine hsign fun h => hne ?_
        rw [h, f.units_zero, Nat.zero_mul]

/-- Multiples as numbers of another format. -/
theorem cast (hx : Multiple k s x x')
    (hregular : k ≠ 0 → RegularCast g x ∧ RegularCast g x') :
    Multiple k s (x.cast g) (x'.cast g) := by
  obtain ⟨rfl, rfl⟩ | ⟨u, r, u', r', rfl, rfl⟩ := hx.nan_or_num
  · trivial
  by_cases hr : r.val = f.top
  · simp only [Binary.cast, hr, hx.1.top_iff.mp hr, if_true]
    exact .infinity (hx.2 (FloatFormat.ne_zero_of_eq_top hr))
  · have hr' : r'.val ≠ f.top := hx.1.ne_top hr
    simp only [Binary.cast, hr, hr', if_false, ofFraction]
    refine .round f.one_pos f.one_pos ?_ (fun hk => ?_) fun hne => ?_
    · push_cast
      rw [hx.1.units_eq hr]
      ring
    · obtain ⟨h, h'⟩ := hregular hk
      exact ⟨h.inRange hr, h'.inRange hr'⟩
    · refine hx.2 fun h => hne ?_
      rw [h, f.units_zero, Nat.zero_mul]

end Multiple

/-! ## Square roots -/

/-- The rung of the square root of a magnitude that is not zero, by the midpoints next to it. -/
structure IsRoot (r q : Fin (f.top + 1)) : Prop where
  ne_top : q.val ≠ f.top
  lower : f.midpoint q.val ^ 2 ≤ 4 * (f.units r.val * f.one)
  upper : 4 * (f.units r.val * f.one) < f.midpoint (q.val + 1) ^ 2

theorem exists_isRoot {r : Fin (f.top + 1)} (hr : r.val ≠ f.top) (h0 : r.val ≠ 0) :
    ∃ q, IsRoot r q ∧ (num false r : Binary f).sqrt = num false q := by
  obtain ⟨q, hq, -, hroot, hlower, hupper⟩ := exists_sqrt_eq r hr h0
  exact ⟨q, ⟨hq, hlower, hupper⟩, hroot⟩

/-- Square roots of magnitudes that are not zero are far above the least normal one. -/
theorem IsRoot.binade_lt {r q : Fin (f.top + 1)} (h : IsRoot r q) (hr : r.val ≠ 0) :
    f.binade < q.val := by
  have hpos := f.binade_pos
  have hmidpoint : f.midpoint (f.binade + 1) = 2 * f.binade + 1 := by
    rcases Nat.lt_or_ge (f.binade + 1) (2 * f.binade) with hlt | hge
    · rw [FloatFormat.midpoint, f.units_of_lt hlt, f.units_of_lt (by omega)]
      omega
    · cases f <;> revert hge <;> decide
  have hroom : (2 * f.binade + 1) ^ 2 ≤ 4 * f.one := by cases f <;> decide +kernel
  have hone : 4 * f.one ≤ 4 * (f.units r.val * f.one) :=
    Nat.mul_le_mul_left 4 (Nat.le_mul_of_pos_left _ (units_pos hr))
  have hlt : f.midpoint (f.binade + 1) ^ 2 < f.midpoint (q.val + 1) ^ 2 :=
    (hmidpoint ▸ hroom).trans_lt (hone.trans_lt h.upper)
  have := f.midpoint_strictMono.lt_iff_lt.mp (lt_of_pow_lt_pow_left₀ 2 (Nat.zero_le _) hlt)
  omega

/-- The square root is `k` binades higher if the number is `2 * k` higher. -/
theorem IsRoot.spans_natCast {r r' q q' : Fin (f.top + 1)} (h : IsRoot r q) (h' : IsRoot r' q')
    (hr : r.val ≠ 0) (k : ℕ) (hunits : f.units r'.val = 2 ^ (k + k) * f.units r.val) :
    f.Spans k q.val q'.val := by
  have hbinade := h.binade_lt hr
  have hmidpoint (n : ℕ) (hn : f.binade < n) :
      f.midpoint (n + k * f.binade) ^ 2 = 2 ^ (k + k) * f.midpoint n ^ 2 := by
    rw [f.midpoint_add_binades k hn, Nat.pow_add]
    ring
  have hsquare : 4 * (f.units r'.val * f.one) = 2 ^ (k + k) * (4 * (f.units r.val * f.one)) := by
    rw [hunits]
    ring
  -- The midpoints next to the root move by `k` binades too, so no other rung lies between them.
  have hle : f.midpoint (q.val + k * f.binade) ^ 2 < f.midpoint (q'.val + 1) ^ 2 := by
    refine lt_of_le_of_lt ?_ h'.upper
    rw [hmidpoint _ hbinade, hsquare]
    exact Nat.mul_le_mul_left _ h.lower
  have hge : f.midpoint q'.val ^ 2 < f.midpoint (q.val + 1 + k * f.binade) ^ 2 := by
    refine lt_of_le_of_lt h'.lower ?_
    rw [hmidpoint _ (by omega), hsquare]
    exact Nat.mul_lt_mul_of_pos_left h.upper (Nat.two_pow_pos _)
  have hlt := f.midpoint_strictMono.lt_iff_lt.mp (lt_of_pow_lt_pow_left₀ 2 (Nat.zero_le _) hle)
  have hlt' := f.midpoint_strictMono.lt_iff_lt.mp (lt_of_pow_lt_pow_left₀ 2 (Nat.zero_le _) hge)
  have hq' : q'.val = q.val + k * f.binade := by omega
  refine ⟨iff_of_false h.ne_top h'.ne_top, fun _ => ?_⟩
  rw [hq', f.units_add_binades k hbinade.le, zpow_natCast]
  push_cast
  rfl

theorem IsRoot.spans {r r' q q' : Fin (f.top + 1)} (h : IsRoot r q) (h' : IsRoot r' q')
    (hr : r.val ≠ 0) (hspans : f.Spans (k + k) r.val r'.val) (htop : r.val ≠ f.top) :
    f.Spans k q.val q'.val := by
  have hr' : r'.val ≠ 0 := hspans.ne_zero hr
  obtain ⟨k, rfl | rfl⟩ := k.eq_nat_or_neg
  · refine h.spans_natCast h' hr k ?_
    have hunits := hspans.units_eq htop
    rw [← Int.natCast_add, zpow_natCast] at hunits
    exact_mod_cast hunits
  · refine (h'.spans_natCast h hr' k ?_).symm
    have hunits := hspans.symm.units_eq (hspans.ne_top htop)
    rw [← neg_add, neg_neg, ← Int.natCast_add, zpow_natCast] at hunits
    exact_mod_cast hunits

/-- The exponent is halved in a square root, which neither overflows nor underflows. -/
theorem Multiple.sqrt (h : Multiple (k + k) false x x') : Multiple k false x.sqrt x'.sqrt := by
  obtain ⟨rfl, rfl⟩ | ⟨u, r, u', r', rfl, rfl⟩ := h.nan_or_num
  · trivial
  have htop := h.1.top_iff
  have hzero := h.1.zero_iff
  by_cases hr0 : r.val = 0
  · rw [Binary.sqrt, if_pos hr0, Binary.sqrt, if_pos (hzero.mp hr0)]
    have hr : r = ⟨0, Nat.succ_pos _⟩ := Fin.ext hr0
    have hr' : r' = ⟨0, Nat.succ_pos _⟩ := Fin.ext (hzero.mp hr0)
    rw [hr, hr']
    exact zeroOf
  · obtain rfl : u' = u := by simpa using h.2 hr0
    have hr0' : r'.val ≠ 0 := h.1.ne_zero hr0
    cases u' with
    | true =>
      simp only [Binary.sqrt, hr0, hr0', if_false, if_true]
      trivial
    | false =>
      by_cases hr : r.val = f.top
      · rw [Binary.sqrt, if_neg hr0, if_neg Bool.false_ne_true, if_pos hr, Binary.sqrt,
          if_neg hr0', if_neg Bool.false_ne_true, if_pos (htop.mp hr)]
        exact ⟨⟨htop, fun h => absurd hr h⟩, fun _ => rfl⟩
      · have hr' : r'.val ≠ f.top := h.1.ne_top hr
        obtain ⟨q, h', hroot⟩ := exists_isRoot hr hr0
        obtain ⟨q', h'', hroot'⟩ := exists_isRoot hr' hr0'
        rw [hroot, hroot']
        exact ⟨h'.spans h'' hr0 h.1 hr, fun _ => rfl⟩

end Binary

end StandardForm
