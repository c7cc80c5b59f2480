import StandardForm.Proofs.Binary.Scaling
import StandardForm.Proofs.Spectrum.Roots

/-!
# Ranks of scaled matrices

A finite matrix times a power of two is the same integer matrix with another common factor, so its
exact singular values are those of the matrix times the power. They round to rungs that are as many
binades further up, as long as none of them is at the low end of the ladder. With the tolerance it
is the same, and so the rank does not depend on the factor as long as the largest singular value and
the tolerance are ordinary numbers.

The largest singular value is searched for bit by bit. That search finds it because fewer singular
values reach a rung the further up it is.
-/

namespace StandardForm

namespace Spectrum

open FloatFormat (double)

namespace SingularValues

variable {s : SingularValues} {k m n : ℕ}

/-- What the counts rely on: a positive common factor and a leading coefficient of one. -/
structure Proper (s : SingularValues) : Prop where
  factor_pos : 0 < s.factor
  exists_eq_cons : ∃ p, s.polynomial = 1 :: p

theorem proper_ofRows (width : ℕ) (rows : List (List Double)) : (ofRows width rows).Proper := by
  obtain ⟨p, hp, -⟩ := exists_polynomial width rows
  refine ⟨?_, p, hp⟩
  simp only [ofRows, Exact.ofRows, commonFactor]
  split
  · exact Nat.one_pos
  · next hne => exact Nat.pos_of_ne_zero hne

/-! ## The largest singular value -/

theorem lowerEnd_snd_pos (hs : s.Proper) : 0 < (s.lowerEnd n).2 := by
  have := hs.factor_pos
  simp only [lowerEnd]
  positivity

theorem lowerEnd_fst_lt (h : m < n) : (s.lowerEnd m).1 < (s.lowerEnd n).1 := by
  have hlt := double.midpoint_strictMono h
  simp only [lowerEnd]
  exact_mod_cast Nat.mul_self_lt_mul_self hlt

theorem countFrom_eq (s : SingularValues) (n : ℕ) :
    s.countFrom n = (rootsFrom s.polynomial (s.lowerEnd n).1 (s.lowerEnd n).2).1 +
      if n % 2 = 0 then (rootsFrom s.polynomial (s.lowerEnd n).1 (s.lowerEnd n).2).2 else 0 := rfl

theorem reaches_iff (s : SingularValues) (n : ℕ) :
    s.reaches n = true ↔ (s.lowerEnd n).1 ≤ s.total * (s.lowerEnd n).2 ∧
      ((s.lowerEnd n).1 * s.polynomial.length < s.total * (s.lowerEnd n).2 ∨
        1 ≤ s.countFrom n) := by
  simp only [reaches]
  split
  · next hlt => simp [hlt]
  split
  · next hge hlt => simp [not_lt.mp hge, hlt]
  · next hge hge' => simp [not_lt.mp hge, hge']

/-- Where no singular value reaches a rung, none reaches a higher one. -/
theorem countFrom_eq_zero_of_lt (hs : s.Proper) (h : m < n) (hzero : s.countFrom m = 0) :
    s.countFrom n = 0 := by
  obtain ⟨p, hp⟩ := hs.exists_eq_cons
  have hden : ∀ i, 0 < (s.lowerEnd i).2 := fun i => lowerEnd_snd_pos hs
  have hratio : ((s.lowerEnd m).1 / (s.lowerEnd m).2 : ℚ) < (s.lowerEnd n).1 / (s.lowerEnd n).2 :=
    div_lt_div_of_pos_right (Int.cast_lt.mpr (lowerEnd_fst_lt h)) (Nat.cast_pos.mpr (hden m))
  rw [countFrom_eq, hp] at hzero ⊢
  rw [rootsFrom_eq_zero_of_lt (hden m) (hden n) (Nat.eq_zero_of_add_eq_zero_right hzero) hratio,
    ite_self]
  rfl

theorem reaches_of_le (hs : s.Proper) (h : m ≤ n) (hn : s.reaches n = true) :
    s.reaches m = true := by
  rcases h.eq_or_lt with rfl | hlt
  · exact hn
  have hsquare := (lowerEnd_fst_lt (s := s) hlt).le
  have hden : (s.lowerEnd m).2 = (s.lowerEnd n).2 := rfl
  rw [reaches_iff] at hn ⊢
  rw [hden]
  refine ⟨hsquare.trans hn.1, hn.2.imp (fun hsum => ?_) fun hcount => ?_⟩
  · exact (mul_le_mul_of_nonneg_right hsquare (Int.natCast_nonneg _)).trans_lt hsum
  · by_contra hzero
    rw [countFrom_eq_zero_of_lt hs hlt (by omega)] at hcount
    omega

/-- The rung of the largest singular value is the highest one that some singular value reaches. -/
theorem le_largest_iff (hs : s.Proper) :
    n ≤ s.largest ↔ n = 0 ∨ n ≤ double.top ∧ s.reaches n = true := by
  rw [largest, le_greatestPassing_iff]
  · simp
  · intro i j hij hj
    simp only [Bool.and_eq_true, decide_eq_true_eq] at hj ⊢
    exact ⟨hij.trans hj.1, reaches_of_le hs hij hj.2⟩
  · have := double.top_lt_two_pow_width
    simp [this]

/-! ## Scaled singular values -/

def scale (k : ℕ) (s : SingularValues) : SingularValues := { s with factor := 2 ^ k * s.factor }

theorem Proper.scale (hs : s.Proper) (k : ℕ) : (s.scale k).Proper :=
  ⟨Nat.mul_pos (Nat.two_pow_pos k) hs.factor_pos, hs.exists_eq_cons⟩

theorem lowerEnd_scale (s : SingularValues) (k : ℕ) (h : double.binade < n) :
    (s.scale k).lowerEnd (n + k * double.binade) =
      (((2 ^ k * 2 ^ k : ℕ) : ℤ) * (s.lowerEnd n).1, 2 ^ k * 2 ^ k * (s.lowerEnd n).2) := by
  simp only [lowerEnd, scale, double.midpoint_add_binades k h]
  refine Prod.ext ?_ ?_
  · push_cast
    ring
  · ring

/-- Above the low end of the ladder as many singular values reach a rung as before reached the one
below it by the factor. -/
theorem countFrom_scale (s : SingularValues) (k : ℕ) (h : double.binade < n) :
    (s.scale k).countFrom (n + k * double.binade) = s.countFrom n := by
  have hparity : (n + k * double.binade) % 2 = n % 2 := by
    have heven : double.binade % 2 = 0 := by decide
    rw [Nat.add_mod, Nat.mul_mod, heven]
    simp
  rw [countFrom_eq, countFrom_eq, lowerEnd_scale s k h, hparity, scale,
    rootsFrom_mul _ _ _ (by positivity)]

theorem reaches_scale (s : SingularValues) (k : ℕ) (h : double.binade < n) :
    (s.scale k).reaches (n + k * double.binade) = s.reaches n := by
  have hpos : (0 : ℤ) < ((2 ^ k * 2 ^ k : ℕ) : ℤ) := by positivity
  rw [Bool.eq_iff_iff, reaches_iff, reaches_iff, countFrom_scale s k h, lowerEnd_scale s k h, scale]
  dsimp only
  rw [Nat.cast_mul (2 ^ k * 2 ^ k) (s.lowerEnd n).2, mul_left_comm s.total, mul_assoc,
    mul_le_mul_iff_right₀ hpos, mul_lt_mul_iff_right₀ hpos]

theorem largest_scale (hs : s.Proper) (k : ℕ) (h : double.binade < s.largest) :
    (s.scale k).largest = min double.top (s.largest + k * double.binade) := by
  have hreached : (s.scale k).reaches (s.largest + k * double.binade) = true := by
    rw [reaches_scale s k h]
    exact ((le_largest_iff hs).mp (Nat.le_refl _)).elim (fun h0 => by omega) And.right
  refine eq_of_forall_le_iff fun n => ?_
  rw [le_largest_iff (hs.scale k), le_min_iff]
  constructor
  · rintro (rfl | ⟨htop, hn⟩)
    · exact ⟨Nat.zero_le _, Nat.zero_le _⟩
    · refine ⟨htop, ?_⟩
      by_contra hlt
      -- The rung that is as many binades further down is reached as well, above the largest one.
      obtain ⟨m, rfl⟩ := Nat.exists_eq_add_of_le' (show k * double.binade ≤ n by omega)
      rw [reaches_scale s k (by omega)] at hn
      have hle := (le_largest_iff hs).mpr (.inr ⟨by omega, hn⟩)
      omega
  · rintro ⟨htop, hle⟩
    exact .inr ⟨htop, reaches_of_le (hs.scale k) hle hreached⟩

theorem ofRung_largest_scale (hs : s.Proper) (k : ℕ) (h : double.binade < s.largest) :
    (Binary.ofRung false (s.scale k).largest : Double) =
      Binary.ofRung false (s.largest + k * double.binade) := by
  rw [largest_scale hs k h]
  exact congrArg (Binary.num false) (Fin.ext (Nat.min_eq_right (Nat.min_le_left _ _)))

/-- The tolerance is scaled as the singular values are, if it is an ordinary number. -/
theorem scaled_tolerance (hs : s.Proper) {k side : ℕ} (h : double.binade < s.largest)
    (ht : (s.tolerance side).Ordinary) (ht' : ((s.scale k).tolerance side).isFinite = true) :
    Binary.Scaled k (s.tolerance side) ((s.scale k).tolerance side) := by
  simp only [tolerance, ofRung_largest_scale hs k h] at ht' ⊢
  exact (Binary.scaled_ofRung false h.le (Binary.isFinite_of_mul ht').1).mul (.inr ht) ht'

/-- As many singular values are above a tolerance that is scaled as they are. -/
theorem countAbove_scale (s : SingularValues) {x x' : Double} (hx : Binary.Scaled k x x')
    (hordinary : x.Ordinary) : (s.scale k).countAbove x' = s.countAbove x := by
  cases x with
  | nan => cases hx
  | num b r =>
  cases x' with
  | nan => cases hx
  | num b' r' =>
    have hrung := hx.rung_eq hordinary.1.le
    obtain ⟨-, hr, hr', -⟩ := hx
    rw [countAbove, countAbove, if_neg hr, if_neg hr', hrung, Nat.add_right_comm,
      countFrom_scale s k (hordinary.1.trans (Nat.lt_succ_self _))]

end SingularValues

/-! ## Scaled matrices -/

theorem gcd_foldl_mul (c g : ℕ) (as : List ℤ) :
    (as.map ((c : ℤ) * ·)).foldl (fun g a => g.gcd a.natAbs) (c * g) =
      c * as.foldl (fun g a => g.gcd a.natAbs) g := by
  induction as generalizing g with
  | nil => rfl
  | cons a as ih =>
    rw [List.map_cons, List.foldl_cons, List.foldl_cons, Int.natAbs_mul, Int.natAbs_natCast,
      Nat.gcd_mul_left, ih]

theorem gcd_foldl_eq_zero {g : ℕ} {as : List ℤ}
    (h : as.foldl (fun g a => g.gcd a.natAbs) g = 0) : g = 0 ∧ ∀ a ∈ as, a = 0 := by
  induction as generalizing g with
  | nil => exact ⟨h, by simp⟩
  | cons a as ih =>
    obtain ⟨hgcd, hrest⟩ := ih h
    rw [Nat.gcd_eq_zero_iff, Int.natAbs_eq_zero] at hgcd
    exact ⟨hgcd.1, List.forall_mem_cons.mpr ⟨hgcd.2, hrest⟩⟩

section Rows

variable {k width : ℕ} {rows rows' : List (List Double)}

/-- The rows of a matrix and those of the matrix times `2 ^ k`. -/
abbrev ScaledRows (k : ℕ) (rows rows' : List (List Double)) : Prop :=
  List.Forall₂ (List.Forall₂ (Binary.Scaled k)) rows rows'

theorem unitsOf_scaled {x x' : Double} (h : Binary.Scaled k x x') :
    unitsOf x' = ((2 ^ k : ℕ) : ℤ) * unitsOf x := by
  cases x with
  | nan => cases h
  | num s r =>
  cases x' with
  | nan => cases h
  | num s' r' =>
    obtain ⟨rfl, -, -, hunits⟩ := h
    cases s <;> simp [unitsOf, Binary.signedUnits, hunits]

theorem isZero_of_unitsOf {x : Double} (hx : x.isFinite = true) (h : unitsOf x = 0) :
    x.isZero = true := by
  cases x with
  | nan => cases hx
  | num s r =>
    refine beq_iff_eq.mpr ((Binary.units_eq_zero_iff (f := double)).mp ?_)
    cases s <;> simpa [unitsOf, Binary.signedUnits] using h

/-- A matrix of zeros is not changed by a factor. -/
theorem ScaledRows.eq_of_isZero (h : ScaledRows k rows rows')
    (hzero : ∀ row ∈ rows, ∀ x ∈ row, x.isZero = true) : rows' = rows := by
  have hrow {row row' : List Double} (h : List.Forall₂ (Binary.Scaled k) row row')
      (hzero : ∀ x ∈ row, x.isZero = true) : row' = row := by
    induction h with
    | nil => rfl
    | cons hx _ ih =>
      rw [List.forall_mem_cons] at hzero
      rw [hx.eq_of_isZero hzero.1, ih hzero.2]
  induction h with
  | nil => rfl
  | cons h _ ih =>
    rw [List.forall_mem_cons] at hzero
    rw [hrow h hzero.1, ih hzero.2]

/-- The integers of a scaled matrix, before a common factor is taken out. -/
theorem ScaledRows.map_unitsOf (h : ScaledRows k rows rows') :
    rows'.map (·.map unitsOf) =
      (rows.map (·.map unitsOf)).map (·.map (((2 ^ k : ℕ) : ℤ) * ·)) := by
  have hrow {row row' : List Double} (h : List.Forall₂ (Binary.Scaled k) row row') :
      row'.map unitsOf = (row.map unitsOf).map (((2 ^ k : ℕ) : ℤ) * ·) := by
    induction h with
    | nil => rfl
    | cons hx _ ih => rw [List.map_cons, List.map_cons, List.map_cons, unitsOf_scaled hx, ih]
  induction h with
  | nil => rfl
  | cons h _ ih => rw [List.map_cons, List.map_cons, List.map_cons, hrow h, ih]

/-- What corresponding entries agree on. -/
theorem ScaledRows.forall_mem_iff {Holds Holds' : Double → Prop} (h : ScaledRows k rows rows')
    (hentry : ∀ x x', Binary.Scaled k x x' → (Holds' x' ↔ Holds x)) :
    (∀ row ∈ rows', ∀ x ∈ row, Holds' x) ↔ ∀ row ∈ rows, ∀ x ∈ row, Holds x := by
  have hrow {row row' : List Double} (h : List.Forall₂ (Binary.Scaled k) row row') :
      (∀ x ∈ row', Holds' x) ↔ ∀ x ∈ row, Holds x := by
    induction h with
    | nil => simp
    | cons hx _ ih => rw [List.forall_mem_cons, List.forall_mem_cons, hentry _ _ hx, ih]
  induction h with
  | nil => simp
  | cons h _ ih =>
    rw [List.forall_mem_cons, List.forall_mem_cons]
    exact and_congr (hrow h) ih

theorem ScaledRows.allFinite_left (h : ScaledRows k rows rows') : AllFinite rows :=
  (h.forall_mem_iff fun _ _ hx => iff_of_true trivial hx.isFinite_left).mp
    fun _ _ _ _ => trivial

theorem ScaledRows.allFinite_right (h : ScaledRows k rows rows') : AllFinite rows' :=
  (h.forall_mem_iff fun _ _ hx => iff_of_true hx.isFinite_right trivial).mpr
    fun _ _ _ _ => trivial

theorem ScaledRows.forall_length (h : ScaledRows k rows rows')
    (hlength : ∀ row ∈ rows, row.length = width) : ∀ row ∈ rows', row.length = width := by
  induction h with
  | nil => exact hlength
  | cons h _ ih =>
    rw [List.forall_mem_cons] at hlength ⊢
    exact ⟨h.length_eq ▸ hlength.1, ih hlength.2⟩

def divisorOf (rows : List (List ℤ)) : ℕ :=
  rows.flatten.foldl (fun g a => g.gcd a.natAbs) 0

theorem commonFactor_eq (rows : List (List ℤ)) :
    commonFactor rows = if divisorOf rows = 0 then 1 else divisorOf rows := by
  rw [divisorOf, List.foldl_flatten]
  rfl

theorem divisorOf_mul (c : ℕ) (rows : List (List ℤ)) :
    divisorOf (rows.map (·.map ((c : ℤ) * ·))) = c * divisorOf rows := by
  rw [divisorOf, ← List.map_flatten]
  exact gcd_foldl_mul c 0 _

/-- A matrix times a power of two is the same integer matrix with another factor, or it is zero. -/
theorem exactOfRows_scaled (h : ScaledRows k rows rows') :
    rows' = rows ∨ Exact.ofRows rows' =
      ⟨2 ^ k * (Exact.ofRows rows).factor, (Exact.ofRows rows).rows⟩ := by
  by_cases hdivisor : divisorOf (rows.map (·.map unitsOf)) = 0
  · refine .inl (h.eq_of_isZero fun row hrow x hx => ?_)
    have hunits := (gcd_foldl_eq_zero hdivisor).2 (unitsOf x)
      (List.mem_flatten.mpr ⟨_, List.mem_map_of_mem hrow, List.mem_map_of_mem hx⟩)
    exact isZero_of_unitsOf (h.allFinite_left row hrow x hx) hunits
  · have hpos : (0 : ℤ) < ((2 ^ k : ℕ) : ℤ) := by positivity
    have hdivisor' : 2 ^ k * divisorOf (rows.map (·.map unitsOf)) ≠ 0 :=
      mul_ne_zero (Nat.two_pow_pos k).ne' hdivisor
    refine .inr ?_
    simp only [Exact.ofRows, h.map_unitsOf, commonFactor_eq, divisorOf_mul, if_neg hdivisor,
      if_neg hdivisor']
    simp only [List.map_map, Function.comp_def, Nat.cast_mul (2 ^ k),
      Int.mul_ediv_mul_of_pos _ _ hpos]

theorem ofRows_scaled (width : ℕ) (h : ScaledRows k rows rows') :
    rows' = rows ∨
      SingularValues.ofRows width rows' = (SingularValues.ofRows width rows).scale k := by
  refine (exactOfRows_scaled h).imp_right fun hexact => ?_
  simp only [SingularValues.ofRows, SingularValues.scale, hexact, h.length_eq]

/-! ## Ranks -/

/-- What is assumed of the ranks of scaled matrices: a power of two leaves them as they are, as long
as the sides are not huge and every entry stays within a range of magnitudes, before and after. -/
class ScaleInvariant [Routines] (range : ℕ) : Prop where
  rank?_scaled (k width : ℕ) (rows rows' : List (List Double)) :
    ScaledRows k rows rows' → (∀ row ∈ rows, row.length = width) → rows.length ≤ 2 ^ 50 →
      width ≤ 2 ^ 50 → (∀ row ∈ rows, ∀ x ∈ row, x.Within range) →
      (∀ row ∈ rows', ∀ x ∈ row, x.Within range) →
      Routines.rank? width rows' = Routines.rank? width rows

/-- Rows of numbers within a range have the same rank as these times a power of two. -/
theorem rankOfRows_scaled [Routines] {range : ℕ} [ScaleInvariant range]
    (h : ScaledRows k rows rows') (hlength : ∀ row ∈ rows, row.length = width)
    (hrows : rows.length ≤ 2 ^ 50) (hwidth : width ≤ 2 ^ 50)
    (hwithin : ∀ row ∈ rows, ∀ x ∈ row, x.Within range)
    (hwithin' : ∀ row ∈ rows', ∀ x ∈ row, x.Within range) :
    rankOfRows width rows' = rankOfRows width rows := by
  rw [rankOfRows, rankOfRows, h.length_eq,
    ScaleInvariant.rank?_scaled k width rows rows' h hlength hrows hwidth hwithin hwithin']

/-- A matrix whose rank does not depend on its scale: its largest singular value and the tolerance
are ordinary numbers, unless it is zero. -/
def Steady (width : ℕ) (rows : List (List Double)) : Prop :=
  (∀ row ∈ rows, ∀ x ∈ row, x.isZero = true) ∨
    double.binade < (SingularValues.ofRows width rows).largest ∧
      ((SingularValues.ofRows width rows).tolerance (Nat.max rows.length width)).Ordinary

/-- As many singular values of a scaled matrix are above its tolerance. -/
theorem significant_scaled (h : ScaledRows k rows rows') (hsteady : Steady width rows)
    (hsteady' : Steady width rows') : significant width rows' = significant width rows := by
  rcases ofRows_scaled width h with heq | hvalues
  · rw [heq]
  rcases hsteady with hzero | ⟨hlargest, ht⟩
  · rw [h.eq_of_isZero hzero]
  rcases hsteady' with hzero | ⟨-, ht'⟩
  · rw [h.eq_of_isZero ((h.forall_mem_iff fun _ _ hx => hx.isZero_iff).mp hzero)]
  rw [significant, significant]
  rw [hvalues, ← h.length_eq] at ht' ⊢
  exact SingularValues.countAbove_scale _
    (SingularValues.scaled_tolerance (SingularValues.proper_ofRows width rows) hlargest ht
      ht'.isFinite) ht

end Rows

end Spectrum

end StandardForm
