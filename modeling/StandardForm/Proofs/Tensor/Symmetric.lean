import StandardForm.Proofs.Binary.Arithmetic
import StandardForm.Proofs.Tensor.Entries
import StandardForm.Tensor.Symmetric

/-!
# The symmetric part of a square array

An entry of the symmetric part is the half of a sum that does not depend on the order of its
terms. So the symmetric part is symmetric bit by bit, and it is its own symmetric part: adding
an entry to itself and halving the sum gives the entry back. An array and its transpose have one
symmetric part.
-/

namespace StandardForm.Tensor

variable {f : FloatFormat} {n : Nat}

theorem shape_symmetricPart (shape : List Nat) (t : Tensor (Binary f)) :
    (t.symmetricPart shape).shape = shape := rfl

theorem entryAt_symmetricPart (t : Tensor (Binary f)) {i j : Nat} (hi : i < n) (hj : j < n) :
    (t.symmetricPart [n, n]).entryAt [i, j] =
      Binary.twoPowNeg f 1 * (t.entryAt [i, j] + t.entryAt [j, i]) :=
  entryAt_ofFn _ (mem_positions_matrix.mpr ⟨i, hi, j, hj, rfl⟩)

theorem entryAt_symmetricPart_comm (t : Tensor (Binary f)) {i j : Nat} (hi : i < n) (hj : j < n) :
    (t.symmetricPart [n, n]).entryAt [j, i] = (t.symmetricPart [n, n]).entryAt [i, j] := by
  rw [entryAt_symmetricPart t hj hi, entryAt_symmetricPart t hi hj, Binary.add_comm]

/-- The symmetric part of a square array is its own symmetric part, bit by bit. -/
theorem symmetricPart_symmetricPart (t : Tensor (Binary f)) :
    (t.symmetricPart [n, n]).symmetricPart [n, n] = t.symmetricPart [n, n] := by
  refine Tensor.ext rfl (List.map_congr_left fun position hposition => ?_)
  obtain ⟨i, hi, j, hj, rfl⟩ := mem_positions_matrix.mp hposition
  change Binary.twoPowNeg f 1 * (_ + (t.symmetricPart [n, n]).entryAt [j, i]) =
    Binary.twoPowNeg f 1 * (t.entryAt [i, j] + t.entryAt [j, i])
  rw [entryAt_symmetricPart_comm t hi hj, entryAt_symmetricPart t hi hj]
  exact Binary.half_mul_add_self _ _

/-! ## Transposition -/

def transpose {α : Type} [Zero α] (t : Tensor α) : Tensor α :=
  ofFn t.shape.reverse fun position => t.entryAt position.reverse

theorem transpose_square {α : Type} [Zero α] {t : Tensor α} (ht : t.shape = [n, n]) :
    t.transpose = ofFn [n, n] fun position => t.entryAt position.reverse := by
  rw [transpose, ht]
  rfl

theorem entryAt_transpose {α : Type} [Zero α] {t : Tensor α} (ht : t.shape = [n, n]) {i j : Nat}
    (hi : i < n) (hj : j < n) : t.transpose.entryAt [i, j] = t.entryAt [j, i] := by
  rw [transpose_square ht]
  exact entryAt_ofFn _ (mem_positions_matrix.mpr ⟨i, hi, j, hj, rfl⟩)

/-- The symmetric part of a square array is symmetric. -/
theorem transpose_symmetricPart (t : Tensor (Binary f)) :
    (t.symmetricPart [n, n]).transpose = t.symmetricPart [n, n] := by
  rw [transpose_square (shape_symmetricPart [n, n] t)]
  refine Tensor.ext rfl (List.map_congr_left fun position hposition => ?_)
  obtain ⟨i, hi, j, hj, rfl⟩ := mem_positions_matrix.mp hposition
  change (t.symmetricPart [n, n]).entryAt [j, i] =
    Binary.twoPowNeg f 1 * (t.entryAt [i, j] + t.entryAt [j, i])
  rw [entryAt_symmetricPart_comm t hi hj, entryAt_symmetricPart t hi hj]

/-- A square array and its transpose have one symmetric part. -/
theorem symmetricPart_transpose {t : Tensor (Binary f)} (ht : t.shape = [n, n]) :
    t.transpose.symmetricPart [n, n] = t.symmetricPart [n, n] := by
  refine Tensor.ext rfl (List.map_congr_left fun position hposition => ?_)
  obtain ⟨i, hi, j, hj, rfl⟩ := mem_positions_matrix.mp hposition
  change Binary.twoPowNeg f 1 * (t.transpose.entryAt [i, j] + t.transpose.entryAt [j, i]) =
    Binary.twoPowNeg f 1 * (t.entryAt [i, j] + t.entryAt [j, i])
  rw [entryAt_transpose ht hi hj, entryAt_transpose ht hj hi, Binary.add_comm]

/-- Taking the symmetric part of a square array, whatever its entries are, gives the halves of the
sums of opposite entries. They form an array that equals its transpose and that is its own symmetric
part, and the transpose of the first array gives the same. -/
theorem symmetrize_projects {t : Tensor (Binary f)} (ht : t.shape = [n, n]) :
    ∃ s, t.symmetrize = .ok s ∧
      (∀ i < n, ∀ j < n, s.entryAt [i, j] =
        Binary.twoPowNeg f 1 * (t.entryAt [i, j] + t.entryAt [j, i])) ∧
      s.transpose = s ∧ s.symmetrize = .ok s ∧ t.transpose.symmetrize = .ok s := by
  have htranspose : t.transpose.shape = [n, n] := by rw [transpose_square ht, shape_ofFn]
  refine ⟨t.symmetricPart [n, n], symmetrize_square ht, ?_, transpose_symmetricPart t, ?_, ?_⟩
  · exact fun i hi j hj => entryAt_symmetricPart t hi hj
  · rw [symmetrize_square (shape_symmetricPart _ _), symmetricPart_symmetricPart]
  · rw [symmetrize_square htranspose, symmetricPart_transpose ht]

/-- The sum of the greatest number with itself is infinite, and the half of three units of the least
magnitude is rounded to two. -/
theorem symmetrize_projects_extremes :
    let least (n : Nat) : Double := .ofRung false n
    let greatest : Double := .ofRung false (FloatFormat.double.top - 1)
    let t : Tensor Double := ⟨[2, 2], [greatest, least 1, least 2, .nan], rfl⟩
    let s : Tensor Double := ⟨[2, 2], [.infinity false, least 2, least 2, .nan], rfl⟩
    t.symmetrize = .ok s ∧ s.transpose = s ∧ s.symmetrize = .ok s ∧
      t.transpose.symmetrize = .ok s := by
  intro least greatest t s
  have hpart : t.symmetrize = .ok s := by
    rw [symmetrize_square (n := 2) rfl]
    exact congrArg Except.ok (by decide +kernel)
  obtain ⟨s', hs', -, hsymmetric, hagain, htranspose⟩ := symmetrize_projects (t := t) (n := 2) rfl
  obtain rfl : s' = s := Except.ok.inj (hs'.symm.trans hpart)
  exact ⟨hpart, hsymmetric, hagain, htranspose⟩

end StandardForm.Tensor
