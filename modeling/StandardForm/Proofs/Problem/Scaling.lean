import StandardForm.Proofs.Problem.Refusals
import StandardForm.Proofs.Selection.Scaling
import StandardForm.Proofs.Spectrum.Magnitudes

/-!
# Equalities times a power of two

The checks of equalities do not depend on the scale of these, as long as the magnitudes stay within
a range in which the routine for ranks does not depend on it: both ranks stay the same, and so does
what elimination selects. Exact scaling of the data alone is not enough. Numbers of the extended
format may become infinite as 64-bit numbers, and the largest singular value may overflow where no
entry does; the rank is zero then.
-/

namespace StandardForm

variable {f : FloatFormat} {m n l : ℕ} {A A' b b' : Tensor (Binary f)}

/-- An array of finite numbers and the same array times `2 ^ k`. -/
structure Tensor.ScaledBy (k : ℤ) (t s : Tensor (Binary f)) : Prop where
  shape_eq : t.shape = s.shape
  entries : List.Forall₂ (Binary.ScaledBy k) t.entries s.entries

namespace Tensor

instance (k : ℤ) (t s : Tensor (Binary f)) : Decidable (t.ScaledBy k s) :=
  decidable_of_iff (_ ∧ _) ⟨fun ⟨h, h'⟩ => ⟨h, h'⟩, fun ⟨h, h'⟩ => ⟨h, h'⟩⟩

theorem ScaledBy.symm_of_neg {k : ℤ} {t s : Tensor (Binary f)} (h : t.ScaledBy (-k) s) :
    s.ScaledBy k t :=
  ⟨h.shape_eq.symm, (h.entries.imp fun _ _ => Binary.scaledBy_neg_iff.mp).flip⟩

theorem forall₂_chunks {α β : Type} {R : α → β → Prop} {as : List α} {bs : List β} (width : ℕ)
    (count : ℕ) (h : List.Forall₂ R as bs) :
    List.Forall₂ (List.Forall₂ R) (chunks width count as) (chunks width count bs) := by
  induction count generalizing as bs with
  | zero => exact .nil
  | succ count ih => exact .cons (List.forall₂_take width h) (ih (List.forall₂_drop width h))

end Tensor

namespace Equalities

/-! ## The data of both ranks -/

theorem scaled_cast {k : ℕ} {t s : Tensor (Binary f)} (h : t.ScaledBy k s)
    (hsteady : ∀ x ∈ t.entries, (x.cast .double).Steady x.value)
    (hsteady' : ∀ x ∈ s.entries, (x.cast .double).Steady x.value) :
    List.Forall₂ (Binary.Scaled k) (t.map (Binary.cast .double)).entries
      (s.map (Binary.cast .double)).entries := by
  rw [Tensor.entries_map, Tensor.entries_map, List.forall₂_map_left_iff,
    List.forall₂_map_right_iff]
  refine List.forall₂_iff_get.mpr ⟨h.entries.length_eq, fun i hi hi' => ?_⟩
  exact (Binary.scaledBy_natCast_iff.mp ((List.forall₂_iff_get.mp h.entries).2 i hi hi')).cast
    (hsteady _ (List.get_mem ..)) (hsteady' _ (List.get_mem ..)).isFinite

theorem scaledRows_beside {k : ℕ} {rows rows' : List (List Double)} {column column' : List Double}
    (h : Spectrum.ScaledRows k rows rows')
    (hcolumn : List.Forall₂ (Binary.Scaled k) column column') :
    Spectrum.ScaledRows k (List.zipWith (fun row x => row ++ [x]) rows column)
      (List.zipWith (fun row x => row ++ [x]) rows' column') := by
  induction h generalizing column column' with
  | nil => exact .nil
  | cons hrow _ ih =>
    cases hcolumn with
    | nil => exact .nil
    | cons hx hcolumn => exact .cons (List.rel_append hrow (.cons hx .nil)) (ih hcolumn)

/-! ## Outcomes -/

/-- What a check ends with, apart from which rows it names as redundant. -/
def withoutRows : Except Fault Unit → Except Fault Unit
  | .error (.rejected (.redundantConstraints rank m _)) =>
    .error (.rejected (.redundantConstraints rank m []))
  | outcome => outcome

theorem withoutRows_verdict (A A' : Tensor (Binary f)) (m rankA rankAb : ℕ) :
    withoutRows (verdict A' m rankA rankAb) = withoutRows (verdict A m rankA rankAb) := by
  rw [verdict, verdict]
  split
  · rfl
  · split
    · rfl
    · rfl

section Routines

variable [Spectrum.Routines]

theorem check_of_ranks (hA : A.shape = [m, n]) (hA' : A'.shape = [m, n])
    (hrank : Spectrum.rank A' = Spectrum.rank A)
    (hbeside : Spectrum.rankBeside A' b' = Spectrum.rankBeside A b) :
    withoutRows (check A' b') = withoutRows (check A b) ∧
      (selected A' = selected A → check A' b' = check A b) := by
  rcases Nat.eq_zero_or_pos m with rfl | hm
  · rw [check_empty hA, check_empty hA']
    exact ⟨rfl, fun _ => rfl⟩
  rw [check_matrix hA hm, check_matrix hA' hm, hrank, hbeside]
  cases Spectrum.rank A with
  | error e => exact ⟨rfl, fun _ => rfl⟩
  | ok rankA =>
    cases Spectrum.rankBeside A b with
    | error e => exact ⟨rfl, fun _ => rfl⟩
    | ok rankAb =>
      refine ⟨withoutRows_verdict A A' m rankA rankAb, fun hselected => ?_⟩
      simp only [ok_bind, verdict, hselected]

section Invariant

variable {range : ℕ} [Spectrum.ScaleInvariant range]

/-- Equalities and the same equalities times a power of two. -/
theorem check_scaled {k : ℕ} (hrange : range ≤ 900) (hA : A.shape = [m, n]) (hb : b.shape = [l])
    (hm : m ≤ 2 ^ 50) (hn : n < 2 ^ 50) (h : A.ScaledBy k A') (h' : b.ScaledBy k b')
    (hwithin : ∀ x ∈ A.entries ++ b.entries, x.Within range)
    (hwithin' : ∀ x ∈ A'.entries ++ b'.entries, x.Within range) :
    withoutRows (check A' b') = withoutRows (check A b) ∧
      (Selection.SteadyElimination (A.map (Binary.cast .double)).rows →
        Selection.SteadyElimination (A'.map (Binary.cast .double)).rows →
        check A' b' = check A b) := by
  have hA' : A'.shape = [m, n] := h.shape_eq ▸ hA
  have hb' : b'.shape = [l] := h'.shape_eq ▸ hb
  obtain ⟨hcastA, hcastb⟩ := List.forall_mem_append.mp fun x hx => (hwithin x hx).cast hrange
  obtain ⟨hcastA', hcastb'⟩ := List.forall_mem_append.mp fun x hx => (hwithin' x hx).cast hrange
  have hlength : ∀ row ∈ (A.map (Binary.cast .double)).rows, row.length = n := fun _ =>
    Tensor.length_of_mem_rows (t := A.map (Binary.cast .double)) hA
  have hcount : (A.map (Binary.cast .double)).rows.length = m := Tensor.length_rows hA
  have hrows : Spectrum.ScaledRows k (A.map (Binary.cast .double)).rows
      (A'.map (Binary.cast .double)).rows := by
    rw [Tensor.rows_eq (t := A.map (Binary.cast .double)) hA,
      Tensor.rows_eq (t := A'.map (Binary.cast .double)) hA']
    exact Tensor.forall₂_chunks _ _ (scaled_cast h (fun x hx => (hcastA x hx).2)
      fun x hx => (hcastA' x hx).2)
  have hrank : Spectrum.rank A' = Spectrum.rank A := by
    rw [Spectrum.rank_matrix hA, Spectrum.rank_matrix hA']
    exact Spectrum.rankOfRows_scaled hrows hlength (hcount.trans_le hm) hn.le
      ((Spectrum.forall_mem_rows hA _).mpr fun x hx => (hcastA x hx).1)
      ((Spectrum.forall_mem_rows hA' _).mpr fun x hx => (hcastA' x hx).1)
  have hrankBeside : Spectrum.rankBeside A' b' = Spectrum.rankBeside A b := by
    rw [Spectrum.rankBeside_matrix hA hb, Spectrum.rankBeside_matrix hA' hb']
    split
    · next heq =>
      subst heq
      have hcolumn := scaled_cast h' (fun x hx => (hcastb x hx).2) fun x hx => (hcastb' x hx).2
      exact Spectrum.rankOfRows_scaled (scaledRows_beside hrows hcolumn)
        (fun _ => Spectrum.length_of_mem_rowsBeside hA)
        ((Spectrum.length_rowsBeside hA hb).trans_le hm) hn
        ((Spectrum.forall_mem_rowsBeside hA hb _).mpr
          ⟨fun x hx => (hcastA x hx).1, fun x hx => (hcastb x hx).1⟩)
        ((Spectrum.forall_mem_rowsBeside hA' hb' _).mpr
          ⟨fun x hx => (hcastA' x hx).1, fun x hx => (hcastb' x hx).1⟩)
    · rfl
  obtain ⟨houtcome, hcheck⟩ := check_of_ranks hA hA' hrank hrankBeside
  refine ⟨houtcome, fun helim helim' => hcheck ?_⟩
  exact Selection.independentByElimination_scaled hrows hlength helim helim'

/-- The checks of equalities have the same outcome after a scaling by a power of two that is exact,
as long as there are not too many of them and their magnitudes stay within the range in which the
rank does not depend on the scale. If neither elimination depends on it, the same rows are named as
redundant. -/
theorem check_scaledBy (k : ℤ) (hrange : range ≤ 900) (hA : A.shape = [m, n]) (hb : b.shape = [l])
    (hm : m ≤ 2 ^ 50) (hn : n < 2 ^ 50) (h : A.ScaledBy k A') (h' : b.ScaledBy k b')
    (hwithin : ∀ x ∈ A.entries ++ b.entries, x.Within range)
    (hwithin' : ∀ x ∈ A'.entries ++ b'.entries, x.Within range) :
    withoutRows (check A' b') = withoutRows (check A b) ∧
      (Selection.SteadyElimination (A.map (Binary.cast .double)).rows →
        Selection.SteadyElimination (A'.map (Binary.cast .double)).rows →
        check A' b' = check A b) := by
  obtain ⟨k, rfl | rfl⟩ := k.eq_nat_or_neg
  · exact check_scaled hrange hA hb hm hn h h' hwithin hwithin'
  · obtain ⟨houtcome, hcheck⟩ := check_scaled hrange (h.shape_eq ▸ hA) (h'.shape_eq ▸ hb) hm hn
      h.symm_of_neg h'.symm_of_neg hwithin' hwithin
    exact ⟨houtcome.symm, fun helim helim' => (hcheck helim' helim).symm⟩

end Invariant

end Routines

def doubledRow (c : ℤ) : Tensor Double × Tensor Double :=
  (⟨[2, 2], [c, 2 * c, 2 * c, 4 * c].map (Binary.ofInt .double), rfl⟩,
    ⟨[2], [c, 2 * c].map (Binary.ofInt .double), rfl⟩)

theorem check_scaledBy_doubledRow :
    check (doubledRow 1).1 (doubledRow 1).2 =
      .error (.rejected (.redundantConstraints 1 2 [1])) ∧
    check (doubledRow (2 ^ 300)).1 (doubledRow (2 ^ 300)).2 =
      .error (.rejected (.redundantConstraints 1 2 [1])) := by
  have hcheck : check (doubledRow 1).1 (doubledRow 1).2 =
      .error (.rejected (.redundantConstraints 1 2 [1])) := by
    have hrank : Spectrum.rank (doubledRow 1).1 = .ok 1 := toOption_eq_some.mp (by decide +kernel)
    have hrankBeside : Spectrum.rankBeside (doubledRow 1).1 (doubledRow 1).2 = .ok 1 :=
      toOption_eq_some.mp (by decide +kernel)
    exact (check_eq_redundant rfl rfl).mpr
      ⟨rfl, hrank, hrankBeside, by decide, by decide +kernel⟩
  refine ⟨hcheck, (Eq.trans ?_ hcheck)⟩
  exact (check_scaledBy 300 (Nat.le_refl 900) rfl rfl (by decide) (by decide)
    (by decide +kernel) (by decide +kernel) (by decide +kernel) (by decide +kernel)).2
    (by decide +kernel) (by decide +kernel)

/-- The equality `x = 1` passes and `2 ^ 2000 x = 2 ^ 2000` does not, in the extended format; nor
does `2 ^ 1023 (w + x + y + z) = 0` in the standard format, where `w + x + y + z = 0` passes. -/
theorem check_not_scaledBy :
    (∃ A b A' b' : Tensor (Binary .extended), A.shape = [1, 1] ∧ b.shape = [1] ∧
      A.ScaledBy 2000 A' ∧ b.ScaledBy 2000 b' ∧ check A b = .ok () ∧
      check A' b' = .error (.rejected (.redundantConstraints 0 1 [0]))) ∧
    ∃ A b A' b' : Tensor Double, A.shape = [1, 4] ∧ b.shape = [1] ∧
      A.ScaledBy 1023 A' ∧ b.ScaledBy 1023 b' ∧ check A b = .ok () ∧
      check A' b' = .error (.rejected (.redundantConstraints 0 1 [])) := by
  constructor
  · let A (c : ℤ) : Tensor (Binary .extended) := ⟨[1, 1], [.ofInt .extended c], rfl⟩
    let b (c : ℤ) : Tensor (Binary .extended) := ⟨[1], [.ofInt .extended c], rfl⟩
    have hranks : Spectrum.rank (A 1) = .ok 1 ∧ Spectrum.rankBeside (A 1) (b 1) = .ok 1 :=
      ⟨toOption_eq_some.mp (by decide +kernel), toOption_eq_some.mp (by decide +kernel)⟩
    have hranks' : Spectrum.rank (A (2 ^ 2000)) = .ok 0 ∧
        Spectrum.rankBeside (A (2 ^ 2000)) (b (2 ^ 2000)) = .ok 0 :=
      ⟨toOption_eq_some.mp (by decide +kernel), toOption_eq_some.mp (by decide +kernel)⟩
    exact ⟨A 1, b 1, A (2 ^ 2000), b (2 ^ 2000), rfl, rfl, by decide +kernel, by decide +kernel,
      (check_eq_ok rfl).mpr ⟨hranks.1, fun _ => hranks.2⟩,
      (check_eq_redundant rfl rfl).mpr
        ⟨rfl, hranks'.1, hranks'.2, by decide, by decide +kernel⟩⟩
  · let A (c : ℤ) : Tensor Double := ⟨[1, 4], List.replicate 4 (.ofInt .double c), rfl⟩
    let b : Tensor Double := ⟨[1], [0], rfl⟩
    have hranks : Spectrum.rank (A 1) = .ok 1 ∧ Spectrum.rankBeside (A 1) b = .ok 1 :=
      ⟨toOption_eq_some.mp (by decide +kernel), toOption_eq_some.mp (by decide +kernel)⟩
    have hranks' : Spectrum.rank (A (2 ^ 1023)) = .ok 0 ∧
        Spectrum.rankBeside (A (2 ^ 1023)) b = .ok 0 :=
      ⟨toOption_eq_some.mp (by decide +kernel), toOption_eq_some.mp (by decide +kernel)⟩
    exact ⟨A 1, b, A (2 ^ 1023), b, rfl, rfl, by decide +kernel, by decide +kernel,
      (check_eq_ok rfl).mpr ⟨hranks.1, fun _ => hranks.2⟩,
      (check_eq_redundant rfl rfl).mpr
        ⟨rfl, hranks'.1, hranks'.2, by decide, by decide +kernel⟩⟩

end Equalities

end StandardForm
