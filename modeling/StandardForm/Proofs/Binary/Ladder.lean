import Mathlib.Order.Monotone.Basic
import Mathlib.Tactic.Ring
import StandardForm.Binary.Ladder

/-!
# Rungs and their magnitudes

The first two binades of a ladder count its units one by one; above them, moving up by a
binade doubles the magnitude. From these two equations follow the two facts about rounding
that exact arithmetic needs: a magnitude of the format rounds to its own rung, and rounding
looks at a fraction only through its value.

Where arithmetic is not enough a rung is searched for bit by bit, as the highest one that passes a
test.
-/

namespace StandardForm

theorem roundHalfEven_mul (num den c : Nat) (hc : 0 < c) :
    roundHalfEven (num * c) (den * c) = roundHalfEven num den := by
  have hlt : 2 * (num % den * c) < den * c ↔ 2 * (num % den) < den := by
    rw [← Nat.mul_assoc, Nat.mul_lt_mul_right hc]
  have heq : 2 * (num % den * c) = den * c ↔ 2 * (num % den) = den := by
    rw [← Nat.mul_assoc, Nat.mul_left_inj (by omega)]
  simp only [roundHalfEven, Nat.mul_div_mul_right _ _ hc, Nat.mul_mod_mul_right, hlt, heq]

theorem roundHalfEven_exact (n den : Nat) (hden : 0 < den) :
    roundHalfEven (n * den) den = n := by
  simp [roundHalfEven, Nat.mul_div_cancel _ hden, hden]

theorem roundHalfEven_le (num den : Nat) : roundHalfEven num den ≤ num / den + 1 := by
  unfold roundHalfEven
  dsimp only
  split <;> omega

namespace FloatFormat

variable (f : FloatFormat)

theorem binade_eq : f.binade = 2 ^ (f.precision - 1) := Nat.one_shiftLeft _

theorem binade_pos : 0 < f.binade := by
  rw [binade_eq]
  exact Nat.two_pow_pos _

theorem one_eq : f.one = 2 ^ f.scale := Nat.one_shiftLeft _

theorem one_pos : 0 < f.one := by
  rw [one_eq]
  exact Nat.two_pow_pos _

theorem three_binades_le_top : 3 * f.binade ≤ f.top := by
  have h : 3 ≤ (1 <<< f.exponentWidth) - 1 := by cases f <;> decide
  exact Nat.mul_le_mul_right _ h

theorem units_of_lt {n : Nat} (h : n < 2 * f.binade) : f.units n = n := by
  have hs : f.stretch n = 0 := by
    have : n / f.binade < 2 := Nat.div_lt_of_lt_mul (by rwa [Nat.mul_comm])
    unfold stretch
    omega
  simp [units, hs]

theorem units_zero : f.units 0 = 0 := f.units_of_lt (Nat.mul_pos Nat.two_pos f.binade_pos)

theorem top_ne_zero : f.top ≠ 0 := by
  have := f.three_binades_le_top
  have := f.binade_pos
  omega

theorem top_lt_two_pow_width : f.top < 2 ^ f.width := by
  have h : (1 <<< f.exponentWidth) - 1 < 2 ^ f.exponentWidth := by cases f <;> decide
  have hw : f.width = f.exponentWidth + (f.precision - 1) := by cases f <;> rfl
  rw [hw, Nat.pow_add, top, binade_eq]
  exact Nat.mul_lt_mul_of_pos_right h (Nat.two_pow_pos _)

/-- Rung `n` in terms of the number of binades below it and the position in its own. -/
theorem units_binade (k m : Nat) (hm : m < f.binade) :
    f.units ((k + 1) * f.binade + m) = (f.binade + m) * 2 ^ k := by
  have hdiv : ((k + 1) * f.binade + m) / f.binade = k + 1 := by
    rw [Nat.mul_comm, Nat.mul_add_div f.binade_pos, Nat.div_eq_of_lt hm, Nat.add_zero]
  have hs : f.stretch ((k + 1) * f.binade + m) = k := by
    rw [stretch, hdiv, Nat.add_sub_cancel]
  have hsub : (k + 1) * f.binade + m - k * f.binade = f.binade + m := by
    rw [Nat.succ_mul]
    omega
  rw [units, hs, hsub, Nat.shiftLeft_eq]

/-- A rung above the first binade is some binades and a position in the next one. -/
theorem exists_binade {n : Nat} (h : f.binade ≤ n) :
    ∃ k m, m < f.binade ∧ n = (k + 1) * f.binade + m := by
  have hq : 1 ≤ n / f.binade := (Nat.one_le_div_iff f.binade_pos).mpr h
  refine ⟨n / f.binade - 1, n % f.binade, Nat.mod_lt _ f.binade_pos, ?_⟩
  rw [Nat.sub_add_cancel hq, Nat.mul_comm]
  exact (Nat.div_add_mod n f.binade).symm

/-- Moving up by a binade doubles the magnitude. -/
theorem units_add_binade {n : Nat} (h : f.binade ≤ n) :
    f.units (n + f.binade) = 2 * f.units n := by
  obtain ⟨k, m, hm, rfl⟩ := f.exists_binade h
  have hshift : (k + 1) * f.binade + m + f.binade = (k + 1 + 1) * f.binade + m := by ring
  rw [hshift, units_binade _ _ _ hm, units_binade _ _ _ hm]
  ring

/-- A power of two from the first full binade on is the magnitude at the foot of a binade. -/
theorem units_mul_binade (k : Nat) : f.units ((k + 1) * f.binade) = 2 ^ (f.precision - 1 + k) := by
  have h := f.units_binade k 0 f.binade_pos
  rw [Nat.add_zero] at h
  rw [h, Nat.add_zero, binade_eq, ← Nat.pow_add]

theorem units_lt_units_succ (n : Nat) : f.units n < f.units (n + 1) := by
  by_cases h : n < f.binade
  · rw [f.units_of_lt (by omega), f.units_of_lt (by omega)]
    exact Nat.lt_succ_self n
  · obtain ⟨k, m, hm, rfl⟩ := f.exists_binade (Nat.le_of_not_lt h)
    rw [units_binade _ _ _ hm]
    rcases Nat.lt_or_ge (m + 1) f.binade with hlt | hge
    · rw [Nat.add_assoc, units_binade _ _ _ hlt]
      exact Nat.mul_lt_mul_of_pos_right (by omega) (Nat.two_pow_pos k)
    · -- The next rung is the first one of the next binade.
      have hnext : (k + 1) * f.binade + m + 1 = (k + 1 + 1) * f.binade + 0 := by
        rw [Nat.succ_mul (k + 1)]
        omega
      rw [hnext, units_binade _ _ _ f.binade_pos, Nat.pow_succ', ← Nat.mul_assoc]
      exact Nat.mul_lt_mul_of_pos_right (by omega) (Nat.two_pow_pos k)

/-- Higher rungs have greater magnitudes. -/
theorem units_strictMono : StrictMono f.units := strictMono_nat_of_lt_succ f.units_lt_units_succ

theorem midpoint_strictMono : StrictMono f.midpoint :=
  strictMono_nat_of_lt_succ fun n => Nat.add_lt_add_of_lt_of_le (f.units_lt_units_succ n)
    (f.units_strictMono.monotone (Nat.pred_le n))

theorem nearest_mul (num den c : Nat) (hc : 0 < c) :
    f.nearest (num * c) (den * c) = f.nearest num den := by
  have hshift (s : Nat) : (den * c) <<< s = (den <<< s) * c := by
    rw [Nat.shiftLeft_eq, Nat.shiftLeft_eq]
    ring
  simp only [nearest, Nat.mul_div_mul_right _ _ hc, hshift, roundHalfEven_mul _ _ _ hc]

/-- A magnitude of the format rounds to its own rung. -/
theorem nearest_units {n den : Nat} (hn : n ≤ f.top) (hden : 0 < den) :
    (f.nearest (f.units n * den) den).val = n := by
  by_cases hb : n < f.binade
  · have hu : f.units n = n := f.units_of_lt (by omega)
    have hlog : n.log2 + 1 ≤ f.precision := by
      by_cases h0 : n = 0
      · subst h0
        cases f <;> decide
      · have := (Nat.log2_lt h0).mpr (f.binade_eq ▸ hb)
        omega
    have hs : n.log2 + 1 - f.precision = 0 := by omega
    simp only [nearest, hu, Nat.mul_div_cancel _ hden, hs, Nat.zero_mul, Nat.shiftLeft_zero,
      roundHalfEven_exact _ _ hden, Nat.zero_add]
    exact Nat.min_eq_right hn
  · obtain ⟨k, m, hm, rfl⟩ := f.exists_binade (Nat.le_of_not_lt hb)
    have hlog : ((f.binade + m) * 2 ^ k).log2 = f.precision - 1 + k := by
      have hpos : 0 < (f.binade + m) * 2 ^ k :=
        Nat.mul_pos (by have := f.binade_pos; omega) (Nat.two_pow_pos k)
      rw [Nat.log2_eq_iff (by omega)]
      constructor
      · rw [Nat.pow_add, ← binade_eq]
        exact Nat.mul_le_mul_right _ (Nat.le_add_right _ _)
      · have hlt : f.binade + m < f.binade * 2 := by omega
        calc (f.binade + m) * 2 ^ k < f.binade * 2 * 2 ^ k :=
              Nat.mul_lt_mul_of_pos_right hlt (Nat.two_pow_pos k)
          _ = 2 ^ (f.precision - 1 + k + 1) := by rw [binade_eq]; ring
    have hp : 1 ≤ f.precision := by cases f <;> decide
    have hs : f.precision - 1 + k + 1 - f.precision = k := by omega
    have hround : roundHalfEven ((f.binade + m) * 2 ^ k * den) (den <<< k) = f.binade + m := by
      have : (f.binade + m) * 2 ^ k * den = (f.binade + m) * (den <<< k) := by
        rw [Nat.shiftLeft_eq]
        ring
      have hpos : 0 < den <<< k := by
        rw [Nat.shiftLeft_eq]
        exact Nat.mul_pos hden (Nat.two_pow_pos k)
      rw [this, roundHalfEven_exact _ _ hpos]
    have hrung : k * f.binade + (f.binade + m) = (k + 1) * f.binade + m := by ring
    simp only [nearest, f.units_binade k m hm, Nat.mul_div_cancel _ hden, hlog, hs, hround, hrung]
    exact Nat.min_eq_right hn

end FloatFormat

/-! ## The search for a rung -/

/-- The search ends where it starts or at a number that passes, and before one that does not. -/
theorem greatestPassing_eq_or {passes : Nat → Bool} (bits start : Nat)
    (hend : passes (start + 2 ^ bits) = false) :
    (greatestPassing passes bits start = start ∨
      passes (greatestPassing passes bits start) = true) ∧
      passes (greatestPassing passes bits start + 1) = false := by
  induction bits generalizing start with
  | zero => exact ⟨.inl rfl, hend⟩
  | succ bits ih =>
    rw [greatestPassing, Nat.one_shiftLeft]
    split
    · next h =>
      have hfound := ih (start + 2 ^ bits) (by rwa [Nat.add_assoc, ← Nat.two_mul, ← Nat.pow_succ'])
      refine ⟨.inr ?_, hfound.2⟩
      rcases hfound.1 with heq | hpasses
      · exact heq.symm ▸ h
      · exact hpasses
    · next h => exact ih start (Bool.eq_false_iff.mpr h)

/-- A search that starts at a number that passes ends at one. -/
theorem greatestPassing_spec {passes : Nat → Bool} (bits start : Nat)
    (hstart : passes start = true) (hend : passes (start + 2 ^ bits) = false) :
    passes (greatestPassing passes bits start) = true ∧
      passes (greatestPassing passes bits start + 1) = false := by
  obtain ⟨hfound, hnext⟩ := greatestPassing_eq_or bits start hend
  refine ⟨?_, hnext⟩
  rcases hfound with heq | hpasses
  · rw [heq]
    exact hstart
  · exact hpasses

/-- The search finds the greatest number that passes, if all below one that passes do. -/
theorem le_greatestPassing_iff {passes : Nat → Bool} {bits n : Nat}
    (hdown : ∀ m n, m ≤ n → passes n = true → passes m = true) (hend : passes (2 ^ bits) = false) :
    n ≤ greatestPassing passes bits 0 ↔ n = 0 ∨ passes n = true := by
  obtain ⟨hfound, hnext⟩ := greatestPassing_eq_or bits 0 (by rwa [Nat.zero_add])
  constructor
  · intro hle
    rcases hfound with hzero | hpasses
    · exact .inl (by omega)
    · exact .inr (hdown _ _ hle hpasses)
  · rintro (rfl | hpasses)
    · exact Nat.zero_le _
    · by_contra hlt
      rw [hdown _ n (by omega) hpasses] at hnext
      cases hnext

end StandardForm
