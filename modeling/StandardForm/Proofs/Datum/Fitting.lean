import StandardForm.Proofs.Datum.Filled
import StandardForm.Proofs.Requirement

/-!
# Arrays that fit

An array is brought to the shape that the numbers of variables and of constraints demand, or it is
filled to that shape if it is left out. What this requires are a few conditions on the shape the
array has, each with a fault of its own. They include that there is room: a filled array and a
matrix without rows are made from the number of variables alone, while arrays are limited in size.
-/

namespace StandardForm

/-! ## Numbers of variables -/

variable {p : Precision} {N : ℕ}

/-- A datum is an integer that is not below zero. -/
inductive Datum.IsNatural : Datum → ℕ → Prop
  | integer (N : ℕ) : IsNatural (.integer N) N
  | word (N : ℕ) : IsNatural (.scalar (.word N)) N

theorem not_storable_of_maxLength_lt (h : Datum.maxLength < N) : ¬ Storable .double [N] :=
  fun hN => le_maxLength_of_storable (p := .standard) hN h

namespace Datum.IsNatural

variable {n : Datum} (h : n.IsNatural N)
include h

theorem naturalValue : n.naturalValue? = .ok (some N) := by cases h <;> rfl

theorem dimension_eq : n.dimension = N := Datum.dimension_eq h.naturalValue

theorem axisLength_eq :
    n.axisLength = if maxLength < N then .error .malformed else .ok (N : ℤ) := by
  cases h <;> rfl

/-- A number of variables too large for the length of an axis is one for which there is no room. -/
theorem axisLength_bind_eq {β : Type} {g : ℤ → Except Fault β}
    (hg : ¬ Storable .double [N] → g N = .error .malformed) : (n.axisLength >>= g) = g N := by
  rw [h.axisLength_eq]
  split
  · next hlt => exact (hg (not_storable_of_maxLength_lt hlt)).symm
  · rfl

/-- The shape of a vector that is filled, if there is room for it. -/
theorem toShape_eq : n.toShape = if Storable .double [N] then .ok [N] else .error .malformed := by
  have hlengths := shapeOfLengths_eq [N]
  have haxes : n.axes = [n] := by cases h <;> rfl
  unfold toShape
  rw [haxes, if_neg (by simp [maxAxes])]
  simp only [List.mapM_cons, List.mapM_nil, bind_assoc, pure_bind]
  exact (h.axisLength_bind_eq fun hN => hlengths.trans (if_neg hN)).trans hlengths

/-- The shape of a matrix without rows, if there is room for it. -/
theorem toRowsShape_eq :
    n.toRowsShape 0 = if Storable .double [N] then .ok [0, N] else .error .malformed := by
  have hlengths := shapeOfLengths_eq [0, N]
  simp only [storable_noRows_iff] at hlengths
  exact (h.axisLength_bind_eq fun hN => hlengths.trans (if_neg hN)).trans hlengths

/-- A matrix without rows is made if there is room for it in the format. -/
theorem bind_rowsShape_eq {β : Type} (g : List ℕ → Except Fault β) :
    (n.axisLength >>= fun cols => shapeOfLengths [0, cols] >>= fun shape =>
      requireSize p.format shape >>= fun _ => g shape) =
      if Storable p.format [N] then g [0, N] else .error .malformed := by
  have hshape : (n.axisLength >>= fun cols => shapeOfLengths [0, cols]) =
      if Storable .double [N] then .ok [0, N] else .error .malformed := h.toRowsShape_eq
  rw [← bind_assoc, hshape]
  by_cases hdouble : Storable .double [N]
  · simp only [if_pos hdouble, ok_bind, requireSize_eq, storable_noRows_iff]
    split <;> rfl
  · rw [if_neg hdouble, if_neg fun hN => hdouble hN.double]
    rfl

end Datum.IsNatural

/-! ## Shapes -/

section Shapes

variable {α : Type} {expected : List Datum} {ns shape : List ℕ} (name : String)

theorem fits_eq (h : List.Forall₂ Datum.IsNatural expected ns) (shape : List ℕ) :
    fits expected shape = .ok (decide (shape = ns)) := by
  induction h generalizing shape with
  | nil => cases shape <;> simp [fits]
  | @cons d k _ _ hd _ ih =>
    cases shape with
    | nil => simp [fits]
    | cons m shape =>
      rw [fits, hd.naturalValue]
      by_cases hm : m = k
      · simp [hm, ih]
      · simp [hm, Ne.symm hm]

/-- A shape is required to be the one that some natural numbers demand. -/
theorem decidedBy_requireShape (h : List.Forall₂ Datum.IsNatural expected ns) :
    DecidedBy (requireShape name expected shape) (fun _ => True)
      [⟨shape = ns, .rejected (.dimensionMismatch name expected shape)⟩] := by
  have hfits := fits_eq h shape
  constructor
  · intro hshape
    rw [decide_eq_true hshape] at hfits
    rw [requireShape_of_fits hfits]
    exact .ok trivial
  · intro hshape
    rw [decide_eq_false hshape] at hfits
    fun_cases requireShape name expected shape with
    | case1 e h => cases hfits.symm.trans h
    | case2 h => cases hfits.symm.trans h
    | case3 h => rfl

theorem Tensor.decidedBy_require (h : List.Forall₂ Datum.IsNatural expected ns) (t : Tensor α) :
    DecidedBy (t.require name expected) (fun v => v.1 = t)
      [⟨t.shape = ns, .rejected (.dimensionMismatch name expected t.shape)⟩] :=
  (decidedBy_requireShape name h).bind fun _ _ => .ok rfl

theorem Tensor.entries_flattenColumn (t : Tensor α) : t.flattenColumn.entries = t.entries := by
  unfold flattenColumn
  split <;> rfl

end Shapes

/-! ## Arrays -/

/-- There is room for an array that is filled, if it is left out. -/
def room (t : Option (Tensor p.Entry)) (N : ℕ) : Requirement where
  met := t = none → Storable .double [N]
  fault := .malformed

/-- There is room for a vector without entries as a matrix without rows. -/
def roomForRows (t : Tensor p.Entry) (rows N : ℕ) : Requirement where
  met := t.shape = [0] → rows = 0 → Storable p.format [N]
  fault := .malformed

/-- A matrix has the demanded numbers of rows and columns. Where no rows are demanded, it may be
left out or be a vector without entries. -/
def matrixFits (name : String) (t : Option (Tensor p.Entry)) (rows : ℕ) (n : Datum) (N : ℕ) :
    Requirement where
  met := t.elim (rows = 0) fun t => t.shape = [rows, N] ∨ t.shape = [0] ∧ rows = 0
  fault := .rejected (.dimensionMismatch name [.integer rows, n] (t.elim [0, N] Tensor.shape))

/-- A vector has the demanded length. It may be left out, and it may be a matrix of one column. -/
def vectorFits (name : String) (t : Option (Tensor p.Entry)) (n : Datum) (N : ℕ) : Requirement where
  met := t.elim True fun t => t.flattenColumn.shape = [N]
  fault := .rejected (.dimensionMismatch name [n] (t.elim [N] (·.flattenColumn.shape)))

/-- The array of a precision that a datum is converted to. -/
def Datum.ConvertsTo (d : Datum) (t : Tensor p.Entry) : Prop := d.toTensor p.format = .ok t

section Arrays

variable {d : Datum} {t : Tensor p.Entry} {n : Datum} (name : String) (hn : n.IsNatural N)
include hn

theorem Datum.decidedBy_toVector (h : d.ConvertsTo t) :
    DecidedBy (d.toVector p.format name n) (fun v => v.1 = t.flattenColumn)
      [vectorFits name (some t) n N] :=
  .bind_ok h (Tensor.decidedBy_require name (.cons hn .nil) t.flattenColumn)

def Tensor.orEmptyRows (t : Tensor p.Entry) (N : ℕ) : Tensor p.Entry :=
  if t.shape = [0] then Datum.emptyRows N else t

/-- An array that is no vector without entries, or of which rows are demanded, is required as it
is. -/
theorem Tensor.decidedBy_requireMatrix {rows : ℕ} (h : ¬ (t.shape = [0] ∧ rows = 0)) :
    DecidedBy (t.require name [.integer rows, n]) (fun v => v.1 = t)
      [matrixFits name (some t) rows n N] := by
  have hrequire := Tensor.decidedBy_require name (.cons (.integer rows) (.cons hn .nil)) t
  exact ⟨fun hmet => hrequire.1 (hmet.resolve_right h),
    fun hunmet => hrequire.2 fun hshape => hunmet (.inl hshape)⟩

theorem Datum.decidedBy_toMatrix (h : d.ConvertsTo t) (rows : ℕ) :
    DecidedBy (d.toMatrix p.format name (.integer rows) n) (fun v => v.1 = t.orEmptyRows N)
      [roomForRows t rows N, matrixFits name (some t) rows n N] := by
  have hvalue : (Datum.integer rows).naturalValue? = .ok (some rows) := rfl
  refine .bind_ok h ?_
  by_cases hempty : t.shape = [0] ∧ rows = 0
  · obtain ⟨hempty, rfl⟩ := hempty
    rw [if_pos hempty, hvalue, ok_bind, if_pos rfl, hn.bind_rowsShape_eq, Tensor.orEmptyRows,
      if_pos hempty]
    constructor
    · intro hroom
      rw [if_pos (hroom hempty rfl)]
      have hrequire := Tensor.decidedBy_require name (.cons (.integer 0) (.cons hn .nil))
        (emptyRows (f := p.format) N)
      exact ⟨fun _ => hrequire.1 rfl, fun hunmet => absurd (.inr ⟨hempty, rfl⟩) hunmet⟩
    · intro hroom
      rw [if_neg fun hN => hroom fun _ _ => hN]
      rfl
  · have hroom : (roomForRows t rows N).met := fun hshape hrows => absurd ⟨hshape, hrows⟩ hempty
    refine ⟨fun _ => ?_, fun hunmet => absurd hroom hunmet⟩
    have hrequire := Tensor.decidedBy_requireMatrix name hn hempty
    by_cases hshape : t.shape = [0]
    · have hrows : ¬ some rows = some 0 := fun hsome => hempty ⟨hshape, Option.some.inj hsome⟩
      rw [if_pos hshape, hvalue, ok_bind, if_neg hrows]
      refine ⟨fun hmet => ?_, hrequire.2⟩
      rw [hmet.resolve_right hempty] at hshape
      cases hshape
    · rw [if_neg hshape, Tensor.orEmptyRows, if_neg hshape]
      exact hrequire

end Arrays

namespace Source

/-- What is known of a source of an array: it is a given datum that is converted to the array, or
the array is left out and filled with a number. -/
inductive Gives (shape : List ℕ) (x : Double) : Source → Option (Tensor p.Entry) → Prop
  | given {d : Datum} {t : Tensor p.Entry} (h : d.ConvertsTo t) : Gives shape x (.given d) (some t)
  | filled : Gives shape x (.filled shape x) none

variable {d : Option Datum} {t : Option (Tensor p.Entry)} {n : Datum} {s : Source} {shape : List ℕ}
  {x : Double} (name : String)

theorem decidedBy_vector (hn : n.IsNatural N) (h : Option.Rel Datum.ConvertsTo d t) :
    DecidedBy (vector d n x) (Gives [N] x · t) [room t N] := by
  cases h with
  | some h => exact ⟨fun _ => .ok (.given h), fun hroom => absurd (fun hnone => nomatch hnone) hroom⟩
  | none =>
    rw [vector, hn.toShape_eq]
    constructor
    · intro hroom
      rw [if_pos (hroom rfl)]
      exact .ok .filled
    · intro hroom
      rw [if_neg fun hN => hroom fun _ => hN]
      rfl

theorem decidedBy_matrix (hn : n.IsNatural N) (h : Option.Rel Datum.ConvertsTo d t) :
    DecidedBy (matrix d 0 n x) (Gives [0, N] x · t) [room t N] := by
  cases h with
  | some h => exact ⟨fun _ => .ok (.given h), fun hroom => absurd (fun hnone => nomatch hnone) hroom⟩
  | none =>
    rw [matrix, hn.toRowsShape_eq]
    constructor
    · intro hroom
      rw [if_pos (hroom rfl)]
      exact .ok .filled
    · intro hroom
      rw [if_neg fun hN => hroom fun _ => hN]
      rfl

namespace Gives

theorem size_eq (h : Gives shape x s t) : s.size = .ok (t.elim (volume shape) Tensor.size) := by
  cases h with
  | given h => exact Datum.vectorLength_of_toTensor h
  | filled => rfl

/-- An array that is left out is filled to the shape that is demanded. -/
theorem decidedBy_fillTo {expected : List Datum} {ns : List ℕ}
    (h : List.Forall₂ Datum.IsNatural expected ns) (hns : Storable p.format ns) :
    DecidedBy (fillTo p.format name ns x expected)
      (fun v => v.1 = Tensor.fill ns (x.cast p.format)) [] := by
  refine .bind_ok (requireSize_eq_ok.mpr hns) ?_
  refine (DecidedBy.bind (decidedBy_requireShape name h) fun _ _ => ?_).1 rfl
  exact .ok rfl

/-- The vector of a source, which is filled to the demanded length if it is left out. -/
theorem decidedBy_toVector (h : Gives shape x s t) (hn : n.IsNatural N)
    (hfilled : t = none → shape = [N] ∧ Storable p.format [N]) :
    DecidedBy (s.toVector p.format name n)
      (fun v => v.1.entries = t.elim (List.replicate N (x.cast p.format)) Tensor.entries)
      [vectorFits name t n N] := by
  cases h with
  | @given d t h =>
    refine (Datum.decidedBy_toVector name hn h).weaken fun v hv => ?_
    rw [hv]
    exact t.entries_flattenColumn
  | filled =>
    obtain ⟨rfl, hN⟩ := hfilled rfl
    refine ⟨fun _ => ?_, fun hunmet => absurd trivial hunmet⟩
    refine (decidedBy_fillTo name (.cons hn .nil) hN).weaken fun v hv => ?_
    rw [hv]
    simp [Tensor.fill]

/-- The matrix of a source, which has no rows if it is left out. -/
theorem decidedBy_toMatrix (h : Gives [0, N] x s t) (hn : n.IsNatural N)
    (hN : Storable p.format [N]) (rows : ℕ) :
    DecidedBy (s.toMatrix p.format name (.integer rows) n) (fun _ => True)
      [matrixFits name t rows n N] := by
  cases h with
  | given h =>
    exact ((Datum.decidedBy_toMatrix name hn h rows).1 fun _ _ => hN).weaken fun _ _ => trivial
  | filled =>
    have hfill : DecidedBy (fillTo p.format name [0, N] x [.integer rows, n]) (fun _ => True)
        [⟨[0, N] = [rows, N], .rejected (.dimensionMismatch name [.integer rows, n] [0, N])⟩] :=
      .bind_ok (requireSize_eq_ok.mpr (storable_noRows_iff.mpr hN))
        ((decidedBy_requireShape name (.cons (.integer rows) (.cons hn .nil))).bind
          fun _ _ => .ok trivial)
    exact ⟨fun hzero => hfill.1 (by rw [hzero]), fun hzero => hfill.2 fun hshape =>
      hzero (List.cons.inj hshape).1.symm⟩

end Gives

end Source

/-- From a matrix that fits, if there is room for it, the number of variables is one for which there
is room. -/
theorem storable_of_matrixFits {name : String} {n : Datum} {rows : ℕ} {d : Datum}
    {t : Tensor p.Entry} (h : d.ConvertsTo t) (hroom : (roomForRows t rows N).met)
    (hfits : (matrixFits name (some t) rows n N).met) : Storable p.format [N] := by
  rcases hfits with hshape | ⟨hempty, hrows⟩
  · have hstored : Storable p.format [rows, N] := hshape ▸ Storable.of_toTensor h
    rcases Nat.eq_zero_or_pos rows with rfl | hpos
    · exact storable_noRows_iff.mp hstored
    · rcases Nat.eq_zero_or_pos N with rfl | hN
      · exact (by cases p <;> decide : Storable p.format [0])
      · have hle : p.format.bytes * N ≤ p.format.bytes * (rows * N) :=
          Nat.mul_le_mul_left _ (Nat.le_mul_of_pos_left N hpos)
        have hstored : p.format.bytes * (rows * N) ≤ Datum.maxBytes := by
          simpa [Storable, hpos.ne', hN.ne'] using hstored
        simpa [Storable, hN.ne'] using hle.trans hstored
  · exact hroom hempty hrows

end StandardForm
