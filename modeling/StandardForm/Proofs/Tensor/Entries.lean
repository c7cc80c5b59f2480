import Mathlib.Data.List.Basic
import StandardForm.Tensor.Basic

/-!
# Entries by position and by row

The positions of a shape, listed in row-major order, stand in that list where `Tensor.offset`
says. So an array made from a function on positions has at each of them the value of the
function. The rows of a matrix, one after the other, are its entries again.
-/

namespace StandardForm.Tensor

variable {α β : Type}

/-! ## Positions -/

/-- Among pieces of one length, the place of an element follows from the number of pieces before
it and its place in its own. -/
theorem getElem?_flatMap_range {w : Nat} {g : Nat → List β} (hw : ∀ i, (g i).length = w) {n i j : Nat}
    (hi : i < n) (hj : j < w) : ((List.range n).flatMap g)[i * w + j]? = (g i)[j]? := by
  have hlength (k : Nat) : ((List.range k).flatMap g).length = k * w := by
    simp [List.length_flatMap, hw, List.map_const']
  induction n with
  | zero => omega
  | succ n ih =>
    rw [List.range_succ, List.flatMap_append, List.flatMap_singleton]
    rcases Nat.lt_or_ge i n with h | h
    · have hlt : i * w + j < n * w := by
        calc i * w + j < i * w + w := by omega
          _ = (i + 1) * w := (Nat.succ_mul i w).symm
          _ ≤ n * w := Nat.mul_le_mul_right w h
      rw [List.getElem?_append_left (by rwa [hlength]), ih h]
    · obtain rfl : i = n := by omega
      rw [List.getElem?_append_right (by rw [hlength]; omega), hlength, Nat.add_sub_cancel_left]

/-- The positions of a shape are those of its first axis, each before those of the rest. -/
theorem positions_cons (n : Nat) (shape : List Nat) :
    positions (n :: shape) =
      (List.range n).flatMap fun i => (positions shape).map (i :: ·) := by
  cases n with
  | zero => rfl
  | succ n =>
    rw [positions.eq_3 _ _ (Nat.succ_ne_zero n)]
    cases h : positions shape with
    | nil => simp
    | cons => rfl

theorem mem_positions_cons {n : Nat} {shape position : List Nat} :
    position ∈ positions (n :: shape) ↔
      ∃ i < n, ∃ rest ∈ positions shape, position = i :: rest := by
  simp [positions_cons, eq_comm]

theorem positions_vector (n : Nat) : positions [n] = (List.range n).map ([·]) := by
  rw [positions_cons, List.map_eq_flatMap]
  rfl

theorem mem_positions_matrix {m n : Nat} {position : List Nat} :
    position ∈ positions [m, n] ↔ ∃ i < m, ∃ j < n, position = [i, j] := by
  simp [mem_positions_cons, positions]

/-- A position stands at its offset. -/
theorem getElem?_positions_offset {shape position : List Nat} (h : position ∈ positions shape) :
    (positions shape)[offset shape position]? = some position := by
  induction shape generalizing position with
  | nil =>
    obtain rfl : position = [] := by simpa [positions] using h
    rfl
  | cons n shape ih =>
    obtain ⟨i, hi, rest, hrest, rfl⟩ := mem_positions_cons.mp h
    have hrow := ih hrest
    -- Along an axis of length one the only index is zero, which is what `offset` puts there.
    have hindex : (if n = 1 then 0 else i) = i := by
      split <;> omega
    have hj : offset shape rest < volume shape := by
      rw [← length_positions]
      exact (List.getElem?_eq_some_iff.mp hrow).1
    rw [offset, hindex, positions_cons,
      getElem?_flatMap_range (fun k => by rw [List.length_map, length_positions]) hi hj,
      List.getElem?_map, hrow, Option.map_some]

/-- An array made from a function has its values as entries. -/
theorem entryAt_ofFn [Zero α] {shape position : List Nat} (g : List Nat → α)
    (h : position ∈ positions shape) : (ofFn shape g).entryAt position = g position := by
  simp [entryAt, ofFn, List.getD_eq_getElem?_getD, getElem?_positions_offset h]

theorem map_ofFn (shape : List Nat) (g : List Nat → α) (k : α → β) :
    (ofFn shape g).map k = ofFn shape fun position => k (g position) :=
  Tensor.ext rfl List.map_map

theorem entryAt_vector [Zero α] {t : Tensor α} {n i : Nat} (h : t.shape = [n]) (hi : i < n) :
    t.entryAt [i] = t.entries.getD i 0 := by
  have hoffset : offset [n] [i] = i := by
    simp only [offset, volume_nil, Nat.mul_one, Nat.add_zero]
    split <;> omega
  rw [entryAt, h, hoffset]

/-! ## Rows -/

/-- A list is made of its entries. -/
theorem map_getD_range (xs : List α) (default : α) :
    (List.range xs.length).map (xs.getD · default) = xs := by
  refine List.ext_getElem (by simp) fun i hi _ => ?_
  have hlt : i < xs.length := by simpa using hi
  simp [hlt]

theorem flatten_chunks (width count : Nat) (as : List α) (h : as.length = count * width) :
    (chunks width count as).flatten = as := by
  induction count generalizing as with
  | zero =>
    rw [Nat.zero_mul] at h
    exact (List.length_eq_zero_iff.mp h).symm
  | succ count ih =>
    rw [chunks, List.flatten_cons, ih _ (by rw [List.length_drop, h, Nat.succ_mul]; omega),
      List.take_append_drop]

theorem length_of_mem_chunks {width count : Nat} {as row : List α}
    (h : as.length = count * width) (hrow : row ∈ chunks width count as) : row.length = width := by
  induction count generalizing as with
  | zero => simp [chunks] at hrow
  | succ count ih =>
    rw [Nat.succ_mul] at h
    rcases List.mem_cons.mp hrow with rfl | hrow
    · simp [h]
    · exact ih (by simp [h]) hrow

theorem rows_eq {m n : Nat} {t : Tensor α} (h : t.shape = [m, n]) :
    t.rows = chunks n m t.entries := by
  simp [rows, h]

theorem length_rows {m n : Nat} {t : Tensor α} (h : t.shape = [m, n]) : t.rows.length = m := by
  rw [rows_eq h, length_chunks]

theorem length_of_mem_rows {m n : Nat} {t : Tensor α} (h : t.shape = [m, n]) {row : List α}
    (hrow : row ∈ t.rows) : row.length = n := by
  rw [rows_eq h] at hrow
  exact length_of_mem_chunks (by simp [t.length_entries, h]) hrow

/-- The rows of a matrix one after the other are its entries. -/
theorem flatten_rows {m n : Nat} {t : Tensor α} (h : t.shape = [m, n]) :
    t.rows.flatten = t.entries := by
  rw [rows_eq h]
  exact flatten_chunks _ _ _ (by simp [t.length_entries, h])

theorem mem_entries_of_mem_rows {m n : Nat} {t : Tensor α} (h : t.shape = [m, n]) {row : List α}
    (hrow : row ∈ t.rows) {x : α} (hx : x ∈ row) : x ∈ t.entries := by
  rw [← flatten_rows h]
  exact List.mem_flatten.mpr ⟨row, hrow, hx⟩

/-- A piece more behind a list is the last piece. -/
theorem chunks_append {width count : Nat} {as bs : List α} (h : as.length = count * width)
    (hbs : bs.length = width) :
    chunks width (count + 1) (as ++ bs) = chunks width count as ++ [bs] := by
  induction count generalizing as with
  | zero =>
    rw [Nat.zero_mul] at h
    simp [chunks, List.length_eq_zero_iff.mp h, ← hbs]
  | succ count ih =>
    rw [Nat.succ_mul] at h
    have hwidth : width ≤ as.length := by omega
    have hrest : (as.drop width).length = count * width := by simp [h]
    rw [chunks, List.take_append_of_le_length hwidth, List.drop_append_of_le_length hwidth,
      ih hrest]
    rfl

/-- The row appended to a matrix is its last one. -/
theorem rows_appendRow {m n : Nat} {A q : Tensor α} (hA : A.shape = [m, n]) (hq : q.shape = [n]) :
    (A.appendRow q hA hq).rows = A.rows ++ [q.entries] := by
  have hshape : (A.appendRow q hA hq).shape = [m + 1, n] := rfl
  rw [rows_eq hshape, rows_eq hA]
  exact chunks_append (by simp [A.length_entries, hA]) (by simp [q.length_entries, hq])

/-- Pieces of one length are what their concatenation is cut into. -/
theorem chunks_flatMap {w : Nat} {g : Nat → List α} (hw : ∀ i, (g i).length = w) (is : List Nat) :
    chunks w is.length (is.flatMap g) = is.map g := by
  induction is with
  | nil => rfl
  | cons i is ih =>
    rw [List.length_cons, chunks, List.flatMap_cons, List.take_left' (hw i), List.drop_left' (hw i),
      ih, List.map_cons]

/-- The rows of a matrix made from a function. -/
theorem rows_ofFn (m n : Nat) (g : List Nat → α) :
    (ofFn [m, n] g).rows = (List.range m).map fun i => (List.range n).map fun j => g [i, j] := by
  have hentries : (ofFn [m, n] g).entries =
      (List.range m).flatMap fun i => (List.range n).map fun j => g [i, j] := by
    simp [ofFn, positions_cons m, positions_vector, List.map_flatMap, Function.comp_def]
  have h := chunks_flatMap (g := fun i => (List.range n).map fun j => g [i, j]) (w := n) (by simp)
    (List.range m)
  rw [rows_eq (shape_ofFn [m, n] g), hentries]
  rwa [List.length_range] at h

theorem getD_chunks {width count i : Nat} (as : List α) (hi : i < count) :
    (chunks width count as).getD i [] = (as.drop (i * width)).take width := by
  induction count generalizing as i with
  | zero => cases hi
  | succ count ih =>
    cases i with
    | zero => simp [chunks]
    | succ i =>
      rw [chunks, List.getD_cons_succ, ih _ (Nat.lt_of_succ_lt_succ hi), List.drop_drop,
        Nat.succ_mul, Nat.add_comm width]

/-- The entry in a row and a column. -/
theorem entryAt_matrix [Zero α] {m n i j : Nat} {t : Tensor α} (h : t.shape = [m, n]) (hi : i < m)
    (hj : j < n) : t.entryAt [i, j] = (t.rows.getD i []).getD j 0 := by
  have hoffset : offset [m, n] [i, j] = i * n + j := by
    have hrow : (if m = 1 then 0 else i) = i := by split <;> omega
    have hcolumn : (if n = 1 then 0 else j) = j := by split <;> omega
    simp [offset, hrow, hcolumn]
  rw [entryAt, h, hoffset, rows_eq h, getD_chunks _ hi]
  simp [List.getD_eq_getElem?_getD, List.getElem?_drop, hj]

end StandardForm.Tensor
