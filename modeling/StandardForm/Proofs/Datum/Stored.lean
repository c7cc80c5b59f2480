import StandardForm.Datum.Shaped
import StandardForm.Proofs.Attempt
import StandardForm.Proofs.Binary.Arithmetic

/-!
# Stored arrays handed in again

An array that a conversion has produced can be handed in as a datum and converted once more: it
has few enough axes, it is small enough to exist, and its numbers stay as they are in their own
format. So the conversion gives it back, and so does bringing it to the shape that it has.
-/

namespace StandardForm

/-- An array of a shape is small enough to exist. -/
def Storable (f : FloatFormat) (shape : List Nat) : Prop :=
  f.bytes * volume (shape.filter (· ≠ 0)) ≤ Datum.maxBytes

instance (f : FloatFormat) (shape : List Nat) : Decidable (Storable f shape) :=
  inferInstanceAs (Decidable (_ ≤ _))

theorem requireSize_eq_ok {f : FloatFormat} {shape : List Nat} :
    Datum.requireSize f shape = .ok () ↔ Storable f shape := by
  unfold Datum.requireSize Storable
  split
  · next h => simpa using h
  · next h => simpa using h

theorem Datum.requireSize_eq (f : FloatFormat) (shape : List Nat) :
    requireSize f shape = if Storable f shape then .ok () else .error .malformed := by
  split
  · next h => exact requireSize_eq_ok.mpr h
  · next h => exact if_pos (Nat.lt_of_not_le h)

theorem fits_integers (ns : List Nat) :
    fits (ns.map fun n : Nat => Datum.integer n) ns = .ok true := by
  induction ns with
  | nil => rfl
  | cons n ns ih =>
    have hn : (Datum.integer n).naturalValue? = .ok (some n) := rfl
    simp [fits, hn, ih]

theorem requireShape_of_fits {name : String} {expected : List Datum} {shape : List Nat}
    (h : fits expected shape = .ok true) :
    requireShape name expected shape = .ok ⟨shape_eq_of_fits h⟩ := by
  fun_cases requireShape name expected shape with
  | case1 e h' => cases h.symm.trans h'
  | case2 h' => rfl
  | case3 h' => cases h.symm.trans h'

theorem fits_of_requireShape {name : String} {expected : List Datum} {shape : List Nat}
    {r : PLift (shape = expected.map Datum.dimension)}
    (h : requireShape name expected shape = .ok r) : fits expected shape = .ok true := by
  unfold requireShape at h
  split at h
  · cases h
  · next hfits => exact hfits
  · cases h

namespace Tensor

variable {α β ε : Type}

theorem require_of_fits {name : String} {expected : List Datum} {t : Tensor α}
    (h : fits expected t.shape = .ok true) :
    t.require name expected = .ok ⟨t, shape_eq_of_fits h⟩ := by
  rw [require, requireShape_of_fits h]
  rfl

theorem fits_of_require {name : String} {expected : List Datum} {t : Tensor α}
    {v : Shaped α (expected.map Datum.dimension)} (h : t.require name expected = .ok v) :
    fits expected t.shape = .ok true := by
  obtain ⟨hshape, h, -⟩ := bind_eq_ok.mp h
  exact fits_of_requireShape h

theorem traverse_eq_ok {g : α → Except ε β} {t : Tensor α} {r : Tensor β} :
    t.traverse g = .ok r ↔
      r.shape = t.shape ∧ (traverseList g t.entries).map Subtype.val = .ok r.entries := by
  unfold traverse
  cases traverseList g t.entries with
  | error e => simp [Except.map]
  | ok bs => simp [Except.map, Tensor.ext_iff, eq_comm]

theorem traverse_map {g : β → Except ε α} {k : α → β} (h : ∀ a, g (k a) = .ok a) (t : Tensor α) :
    (t.map k).traverse g = .ok t := by
  refine traverse_eq_ok.mpr ⟨rfl, ?_⟩
  change (traverseList g (t.entries.map k)).map Subtype.val = .ok t.entries
  induction t.entries with
  | nil => rfl
  | cons a as ih =>
    obtain ⟨bs, hbs, hval⟩ := map_eq_ok.mp ih
    rw [List.map_cons, traverseList, h]
    dsimp only
    rw [hbs]
    exact congrArg (fun l => Except.ok (a :: l)) hval

end Tensor

namespace Datum

variable {f : FloatFormat} {t : Tensor (Binary f)}

theorem elements_ofTensor (h : t.shape.length ≤ maxAxes) :
    (ofTensor t).elements = .ok (t.map (Scalar.fixed f)) := by
  have : ¬ maxAxes < (t.map (Scalar.fixed f)).shape.length := Nat.not_lt.mpr h
  simp only [elements, elements?, ofTensor, NumberArray.scalars, this, if_false]

/-- A stored array is converted to itself. -/
theorem toTensor_ofTensor (haxes : t.shape.length ≤ maxAxes) (hsize : Storable f t.shape) :
    (ofTensor t).toTensor f = .ok t := by
  have hcast (x : Binary f) : (Scalar.fixed f x).toBinary f = .ok x := by
    rw [Scalar.toBinary, Binary.cast_self]
  rw [toTensor, elements_ofTensor haxes, ok_bind, Tensor.shape_map,
    requireSize_eq_ok.mpr hsize, ok_bind, Tensor.traverse_map hcast]

/-- An array that is too large to exist is no datum. -/
theorem toTensor_ofTensor_of_not_storable (haxes : t.shape.length ≤ maxAxes)
    (hsize : ¬ Storable f t.shape) : (ofTensor t).toTensor f = .error .malformed := by
  rw [toTensor, elements_ofTensor haxes, ok_bind, Tensor.shape_map, requireSize_eq, if_neg hsize]
  rfl

/-- What the elements of a datum are, if it has any: lists of one level agree in shape, and there
are not too many axes. -/
theorem elements_eq_ok {d : Datum} {e : Tensor Scalar} :
    d.elements = .ok e ↔ d.elements? = some e ∧ e.shape.length ≤ maxAxes := by
  unfold elements
  split
  · next e' he =>
    split
    · next hmany =>
      refine iff_of_false (fun h => by cases h) fun h => ?_
      cases he.symm.trans h.1
      exact Nat.not_le.mpr hmany h.2
    · next hfew =>
      constructor
      · rintro ⟨⟩
        exact ⟨he, Nat.not_lt.mp hfew⟩
      · intro h
        exact congrArg Except.ok (Option.some.inj (he.symm.trans h.1))
  · next he =>
    refine iff_of_false (fun h => by cases h) fun h => ?_
    cases he.symm.trans h.1

/-- The array that a datum is converted to has the shape of its elements. -/
theorem shape_of_toTensor {d : Datum} {t : Tensor (Binary f)} (h : d.toTensor f = .ok t) :
    ∃ e, d.elements? = some e ∧ t.shape = e.shape ∧ t.shape.length ≤ maxAxes := by
  obtain ⟨e, he, h⟩ := bind_eq_ok.mp h
  obtain ⟨⟨⟩, -, h⟩ := bind_eq_ok.mp h
  obtain ⟨hsome, hfew⟩ := elements_eq_ok.mp he
  have hshape := Tensor.shape_traverse h
  exact ⟨e, hsome, hshape, hshape ▸ hfew⟩

/-- A single number is converted to an array without axes. -/
theorem shape_toTensor_of_single {d : Datum} {s : Scalar} (h : d.toScalar? = some s)
    {t : Tensor (Binary f)} (ht : d.toTensor f = .ok t) : t.shape = [] := by
  obtain ⟨e, he, hshape, -⟩ := shape_of_toTensor ht
  rw [hshape]
  cases d with
  | scalar s =>
    obtain rfl : Tensor.scalar s = e := by simpa [elements?] using he
    rfl
  | list items => cases h
  | array a =>
    obtain rfl : a.scalars = e := by simpa [elements?] using he
    rw [NumberArray.shape_scalars]
    by_contra hshape
    simp [toScalar?, hshape] at h

theorem vectorLength_ofTensor (h : t.shape.length ≤ maxAxes) :
    (ofTensor t).vectorLength = .ok (volume t.shape) := by
  rw [vectorLength, elements_ofTensor h]
  simp [Except.map, Tensor.size, t.length_entries]

theorem toVector_ofTensor {n : Nat} (name : String) (h : t.shape = [n]) (hsize : Storable f [n]) :
    (ofTensor t).toVector f name (integer n) = .ok ⟨t, h⟩ := by
  have hconv : (ofTensor t).toTensor f = .ok t :=
    toTensor_ofTensor (by simp [h, maxAxes]) (h ▸ hsize)
  have hflat : t.flattenColumn = t := by
    unfold Tensor.flattenColumn
    split
    · next h' => simp [h] at h'
    · rfl
  have hfits : fits [integer n] t.shape = .ok true := h ▸ fits_integers [n]
  rw [toVector, hconv, ok_bind, hflat]
  exact Tensor.require_of_fits hfits

theorem toMatrix_ofTensor {m n : Nat} (name : String) (h : t.shape = [m, n])
    (hsize : Storable f [m, n]) :
    (ofTensor t).toMatrix f name (integer m) (integer n) = .ok ⟨t, h⟩ := by
  have hconv : (ofTensor t).toTensor f = .ok t :=
    toTensor_ofTensor (by simp [h, maxAxes]) (h ▸ hsize)
  have hfits : fits [integer m, integer n] t.shape = .ok true := h ▸ fits_integers [m, n]
  rw [toMatrix, hconv, ok_bind, if_neg (by simp [h])]
  exact Tensor.require_of_fits hfits

/-- Numbers of one entry, whatever the axes around it, are small enough. -/
theorem storable_ones (f : FloatFormat) (k : Nat) : Storable f (List.replicate k 1) := by
  have hvolume : volume ((List.replicate k 1).filter (· ≠ 0)) = 1 := by
    induction k with
    | zero => rfl
    | succ k ih => simpa [List.replicate_succ] using ih
  rw [Storable, hvolume]
  cases f <;> decide

theorem toNested_eq_ok {d : Datum} {x : Nested (Binary f)} :
    d.toNested f = .ok x ↔
      ∃ t, d.toTensor f = .ok t ∧ t.entries = [x.value] ∧ t.shape.length = x.depth := by
  constructor
  · intro h
    obtain ⟨t, ht, h⟩ := bind_eq_ok.mp h
    refine ⟨t, ht, ?_⟩
    split at h
    · next value hentries =>
      cases pure_eq_ok.mp h
      exact ⟨hentries, rfl⟩
    · cases h
  · rintro ⟨t, ht, hentries, hdepth⟩
    rw [toNested, ht, ok_bind, hentries, hdepth]
    rfl

/-- A number of a format, by itself or with axes around it, is converted to its array. -/
theorem toTensor_ofNested {x : Nested (Binary f)} (h : x.depth ≤ maxAxes) :
    (ofNested x).toTensor f = .ok x.toTensor := by
  have harray : (ofTensor x.toTensor).toTensor f = .ok x.toTensor :=
    toTensor_ofTensor (by simpa [Nested.toTensor] using h) (storable_ones f x.depth)
  unfold ofNested
  split
  · next hdepth =>
    have helements : (scalar (.fixed f x.value)).elements? = (ofTensor x.toTensor).elements? := by
      simp [elements?, ofTensor, NumberArray.scalars, Nested.toTensor, Tensor.map, Tensor.scalar,
        hdepth]
    rw [← harray, toTensor, toTensor, elements, elements, helements]
  · exact harray

/-- A number that a conversion has produced is converted to itself, with the axes around it. -/
theorem toNested_ofNested {x : Nested (Binary f)} (h : x.depth ≤ maxAxes) :
    (ofNested x).toNested f = .ok x :=
  toNested_eq_ok.mpr ⟨x.toTensor, toTensor_ofNested h, rfl, by simp [Nested.toTensor]⟩

end Datum

/-! ## What conversions produce is small enough -/

theorem Tensor.eq_of_require {α : Type} {name : String} {expected : List Datum} {t : Tensor α}
    {v : Shaped α (expected.map Datum.dimension)} (h : t.require name expected = .ok v) :
    v.1 = t := by
  obtain ⟨hshape, -, hv⟩ := bind_eq_ok.mp h
  exact congrArg Subtype.val (pure_eq_ok.mp hv).symm

theorem shape_of_lengths {m n : Int} {shape : List Nat}
    (h : Datum.shapeOfLengths [m, n] = .ok shape) : shape = [m.toNat, n.toNat] := by
  unfold Datum.shapeOfLengths at h
  split at h
  · cases h
  · obtain ⟨⟨⟩, -, h⟩ := bind_eq_ok.mp h
    exact (pure_eq_ok.mp h).symm

namespace Storable

variable {f : FloatFormat} {d : Datum} {name : String}

/-- Where there is room for some rows, there is room for their number. -/
theorem of_rows {m n : Nat} (h : Storable f [m + 1, n]) : Storable f [m + 1] := by
  rcases Nat.eq_zero_or_pos n with rfl | hn
  · simpa [Storable] using h
  have hrows : f.bytes * ((m + 1) * n) ≤ Datum.maxBytes := by
    simpa [Storable, Nat.ne_of_gt hn] using h
  have hentries : f.bytes * (m + 1) ≤ f.bytes * ((m + 1) * n) :=
    Nat.mul_le_mul_left f.bytes (Nat.le_mul_of_pos_right (m + 1) hn)
  simpa [Storable] using Nat.le_trans hentries hrows

theorem of_toTensor {t : Tensor (Binary f)} (h : d.toTensor f = .ok t) : Storable f t.shape := by
  obtain ⟨e, -, h⟩ := bind_eq_ok.mp h
  obtain ⟨⟨⟩, hsize, h⟩ := bind_eq_ok.mp h
  rw [Tensor.shape_traverse h]
  exact requireSize_eq_ok.mp hsize

theorem flattenColumn {t : Tensor (Binary f)} (h : Storable f t.shape) :
    Storable f t.flattenColumn.shape := by
  unfold Tensor.flattenColumn
  split
  · next m h' =>
    rw [h'] at h
    by_cases hm : m = 0
    · simpa [Storable, hm] using h
    · simpa [Storable, hm] using h
  · exact h

theorem of_toVector {n : Datum} {v : Shaped (Binary f) [n.dimension]}
    (h : d.toVector f name n = .ok v) : Storable f [n.dimension] := by
  obtain ⟨t, ht, h⟩ := bind_eq_ok.mp h
  rw [← v.2, Tensor.eq_of_require h]
  exact (of_toTensor ht).flattenColumn

theorem of_toMatrix {rows cols : Datum} {v : Shaped (Binary f) [rows.dimension, cols.dimension]}
    (h : d.toMatrix f name rows cols = .ok v) : Storable f [rows.dimension, cols.dimension] := by
  obtain ⟨t, ht, h⟩ := bind_eq_ok.mp h
  rw [← v.2]
  split at h
  · obtain ⟨k, -, h⟩ := bind_eq_ok.mp h
    split at h
    · obtain ⟨c, -, h⟩ := bind_eq_ok.mp h
      obtain ⟨shape, hshape, h⟩ := bind_eq_ok.mp h
      obtain ⟨⟨⟩, hsize, h⟩ := bind_eq_ok.mp h
      obtain rfl := shape_of_lengths hshape
      rw [Tensor.eq_of_require h]
      exact requireSize_eq_ok.mp hsize
    · rw [Tensor.eq_of_require h]
      exact of_toTensor ht
  · rw [Tensor.eq_of_require h]
    exact of_toTensor ht

theorem of_fillTo {shape : List Nat} {x : Double} {expected : List Datum}
    {v : Shaped (Binary f) (expected.map Datum.dimension)}
    (h : Source.fillTo f name shape x expected = .ok v) :
    Storable f (expected.map Datum.dimension) := by
  obtain ⟨⟨⟩, hsize, h⟩ := bind_eq_ok.mp h
  obtain ⟨hshape, -, -⟩ := bind_eq_ok.mp h
  exact hshape.down ▸ requireSize_eq_ok.mp hsize

theorem of_sourceToVector {s : Source} {n : Datum} {v : Shaped (Binary f) [n.dimension]}
    (h : s.toVector f name n = .ok v) : Storable f [n.dimension] := by
  cases s with
  | given d => exact of_toVector h
  | filled shape x => exact of_fillTo h

theorem of_sourceToMatrix {s : Source} {rows cols : Datum}
    {v : Shaped (Binary f) [rows.dimension, cols.dimension]}
    (h : s.toMatrix f name rows cols = .ok v) : Storable f [rows.dimension, cols.dimension] := by
  cases s with
  | given d => exact of_toMatrix h
  | filled shape x => exact of_fillTo h

end Storable

theorem Tensor.volume_flattenColumn {α : Type} (t : Tensor α) :
    volume t.flattenColumn.shape = volume t.shape := by
  unfold flattenColumn
  split
  · next m h => simp [h]
  · rfl

/-- A datum has as many entries as the array that it is converted to. -/
theorem Datum.vectorLength_of_toTensor {f : FloatFormat} {d : Datum} {t : Tensor (Binary f)}
    (h : d.toTensor f = .ok t) : d.vectorLength = .ok t.size := by
  obtain ⟨e, he, h⟩ := bind_eq_ok.mp h
  obtain ⟨⟨⟩, -, h⟩ := bind_eq_ok.mp h
  rw [vectorLength, he, Tensor.size, t.length_entries, Tensor.shape_traverse h, ← e.length_entries]
  rfl

/-- What can be converted to a vector has as many entries. -/
theorem Datum.vectorLength_of_toVector {f : FloatFormat} {d : Datum} {name : String} {n : Nat}
    {v : Shaped (Binary f) [n]} (h : d.toVector f name (integer n) = .ok v) :
    d.vectorLength = .ok n := by
  obtain ⟨t, ht, h⟩ := bind_eq_ok.mp h
  have hflatten : volume t.flattenColumn.shape = n := by
    rw [← Tensor.eq_of_require h, v.2]
    simp
  rw [vectorLength_of_toTensor ht, Tensor.size, t.length_entries, ← t.volume_flattenColumn, hflatten]

end StandardForm
