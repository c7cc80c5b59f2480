import StandardForm.Problem.Variation
import StandardForm.Proofs.Datum.Stored
import StandardForm.Proofs.Problem.Construction

/-!
# Vectors handed in as columns

Wherever a vector is taken, a matrix of one column with the same entries will do. The two have as
many entries, which is all that is looked at to find the numbers of variables and of constraints,
and the same vector is stored of both or the same fault found, since a column is flattened before
its length is compared. So a construction and a variation cannot tell which of its vectors have been
handed in as columns, whatever their lengths are.
-/

namespace StandardForm

/-! ## Columns -/

namespace Tensor

variable {α β ε : Type}

/-- An array with one more axis, of length one, at its end. -/
def column (t : Tensor α) : Tensor α :=
  ⟨t.shape ++ [1], t.entries, by
    rw [t.length_entries]
    induction t.shape with
    | nil => rfl
    | cons n shape ih => rw [List.cons_append, volume_cons, volume_cons, ih]⟩

theorem traverse_column (g : α → Except ε β) (t : Tensor α) :
    t.column.traverse g = (t.traverse g).map column := by
  unfold traverse
  simp only [column]
  cases traverseList g t.entries <;> rfl

variable {t : Tensor α} {k : ℕ}

/-- A vector is what its column is flattened to. -/
theorem flattenColumn_column (h : t.shape = [k]) : t.column.flattenColumn = t := by
  have hcolumn : t.column.shape = [k, 1] := congrArg (· ++ [1]) h
  unfold flattenColumn
  split
  · next m hm =>
    rw [hcolumn] at hm
    cases hm
    exact Tensor.ext h.symm rfl
  · next hne => exact absurd hcolumn (hne k)

theorem flattenColumn_vector (h : t.shape = [k]) : t.flattenColumn = t := by
  unfold flattenColumn
  split
  · next hm => simp [h] at hm
  · rfl

end Tensor

/-- An array of numbers with one more axis, of length one, at its end. -/
def NumberArray.column : NumberArray → NumberArray
  | reals f t => reals f t.column
  | words t => words t.column

namespace Datum

variable {d d' : Datum}

/-- One datum has the entries of another one, which is a vector, in a matrix of one column. -/
def ColumnOf (d' d : Datum) : Prop :=
  ∃ t k, d.elements? = some t ∧ t.shape = [k] ∧ d'.elements? = some t.column

theorem columnOf_array {a : NumberArray} {k : ℕ} (h : a.shape = [k]) :
    (array a.column).ColumnOf (array a) := by
  refine ⟨a.scalars, k, rfl, a.shape_scalars.trans h, ?_⟩
  cases a <;> rfl

/-- The same datum or the column of it. -/
def UpToColumn (d d' : Datum) : Prop := d' = d ∨ d'.ColumnOf d

theorem ColumnOf.elements (h : d'.ColumnOf d) :
    ∃ t k, t.shape = [k] ∧ d.elements = .ok t ∧ d'.elements = .ok t.column := by
  obtain ⟨t, k, ht, hshape, ht'⟩ := h
  refine ⟨t, k, hshape, elements_eq_ok.mpr ⟨ht, ?_⟩, elements_eq_ok.mpr ⟨ht', ?_⟩⟩
  · simp [hshape, maxAxes]
  · simp [Tensor.column, hshape, maxAxes]

/-- A column needs as much room as the vector. -/
theorem requireSize_column (f : FloatFormat) (k : ℕ) : requireSize f [k, 1] = requireSize f [k] := by
  by_cases hk : k = 0 <;> simp [requireSize, hk]

/-- A vector and its column are converted alike. -/
theorem ColumnOf.toTensor (h : d'.ColumnOf d) (f : FloatFormat) :
    d'.toTensor f = (d.toTensor f).map Tensor.column := by
  obtain ⟨t, k, hshape, ht, ht'⟩ := h.elements
  have hcolumn : t.column.shape = [k, 1] := congrArg (· ++ [1]) hshape
  rw [Datum.toTensor, Datum.toTensor, ht, ht', ok_bind, ok_bind, hcolumn, hshape,
    requireSize_column, Tensor.traverse_column, map_bind]

theorem ColumnOf.shape_of_toTensor (h : d'.ColumnOf d) {f : FloatFormat} {t : Tensor (Binary f)}
    (ht : d.toTensor f = .ok t) : ∃ k, t.shape = [k] := by
  obtain ⟨e, k, he, hshape, -⟩ := h
  obtain ⟨e', he', hshape', -⟩ := Datum.shape_of_toTensor ht
  obtain rfl : e = e' := Option.some.inj (he.symm.trans he')
  exact ⟨k, hshape'.trans hshape⟩

namespace UpToColumn

theorem vectorLength (h : UpToColumn d d') : d'.vectorLength = d.vectorLength := by
  rcases h with rfl | h
  · rfl
  · obtain ⟨t, k, -, ht, ht'⟩ := h.elements
    rw [Datum.vectorLength, Datum.vectorLength, ht, ht']
    rfl

/-- A vector and its column are brought to the same vector, or refused for the same fault. -/
theorem toVector (h : UpToColumn d d') (f : FloatFormat) (name : String) (n : Datum) :
    d'.toVector f name n = d.toVector f name n := by
  rcases h with rfl | h
  · rfl
  rw [Datum.toVector, Datum.toVector, h.toTensor f]
  cases ht : d.toTensor f with
  | error e => rfl
  | ok t =>
    obtain ⟨k, hk⟩ := h.shape_of_toTensor ht
    simp only [Except.map, ok_bind, Tensor.flattenColumn_column hk, Tensor.flattenColumn_vector hk]

end UpToColumn

end Datum

/-! ## Constructions -/

namespace Source

/-- Two sources that give the same vectors. -/
structure SameVectors (s s' : Source) : Prop where
  size : s'.size = s.size
  toVector : ∀ f name n, s'.toVector f name n = s.toVector f name n

theorem sameVectors_given {d d' : Datum} (h : d.UpToColumn d') :
    SameVectors (given d) (given d') :=
  ⟨h.vectorLength, h.toVector⟩

/-- A chain that begins with a vector does not tell it from its column, if the rest does not. -/
theorem vector_bind {β : Type} {d d' : Option Datum} (h : Option.Rel Datum.UpToColumn d d')
    (n : Datum) (x : Double) {k k' : Source → Except Fault β}
    (hk : ∀ s s', SameVectors s s' → k' s' = k s) :
    (vector d' n x >>= k') = (vector d n x >>= k) := by
  cases h with
  | some h => exact hk _ _ (sameVectors_given h)
  | none =>
    rw [vector]
    cases n.toShape with
    | error e => rfl
    | ok shape => exact hk _ _ ⟨rfl, fun _ _ _ => rfl⟩

end Source

/-- The data of two regions agree, except that some vectors of the first are columns in the
second. -/
structure Region.Data.UpToColumns (R R' : Region.Data) : Prop where
  A : R'.A = R.A
  b : R.b.UpToColumn R'.b
  G : R'.G = R.G
  g : Option.Rel Datum.UpToColumn R.g R'.g
  d : Option.Rel Datum.UpToColumn R.d R'.d
  u : Option.Rel Datum.UpToColumn R.u R'.u

namespace LinearProgram

variable {p : Precision}

/-- The data of two linear programs agree, except that some vectors of the first are columns in the
second. -/
structure Data.UpToColumns (data data' : Data) : Prop where
  c : data.c.UpToColumn data'.c
  N : data'.N = data.N
  region : data.region.UpToColumns data'.region

theorem assemble_columns {n : Datum} {name : String} {costs costs' A b b' : Source}
    {G g g' d d' u u' : Option Datum} (hcosts : costs.SameVectors costs') (hb : b.SameVectors b')
    (hg : Option.Rel Datum.UpToColumn g g') (hd : Option.Rel Datum.UpToColumn d d')
    (hu : Option.Rel Datum.UpToColumn u u') :
    assemble p n name costs' A b' G g' d' u' = assemble p n name costs A b G g d u := by
  refine Source.vector_bind hu n _ fun u u' hu => Source.vector_bind hd n _ fun d d' hd => ?_
  refine bind_congr fun G => Source.vector_bind hg _ _ fun g g' hg => ?_
  simp only [hb.size, hg.size, hcosts.toVector, hd.toVector, hu.toVector, hb.toVector, hg.toVector]

/-- The same linear program is settled, or the same fault found, if vectors are columns. -/
theorem settle_columns [Spectrum.Routines] {data data' : Data} (h : data.UpToColumns data') :
    settle p data' = settle p data := by
  have hcount : data'.count = data.count := by
    rw [Data.count, Data.count, h.N, h.c.vectorLength]
  rw [settle_eq, settle_eq, hcount, h.region.A, h.region.G]
  refine bind_congr fun n => congrArg (· >>= _) ?_
  exact assemble_columns (Source.sameVectors_given h.c) (Source.sameVectors_given h.region.b)
    h.region.g h.region.d h.region.u

end LinearProgram

namespace QuadraticProgram

variable {p : Precision}

/-- The data of two quadratic programs agree, except that some vectors of the first are columns in
the second. -/
structure Data.UpToColumns (data data' : Data) : Prop where
  V : data'.V = data.V
  N : data'.N = data.N
  q : Option.Rel Datum.UpToColumn data.q data'.q
  A : data'.A = data.A
  b : Option.Rel Datum.UpToColumn data.b data'.b
  G : data'.G = data.G
  g : Option.Rel Datum.UpToColumn data.g data'.g
  d : Option.Rel Datum.UpToColumn data.d data'.d
  u : Option.Rel Datum.UpToColumn data.u data'.u

/-- The same quadratic program is settled, or the same fault found, if vectors are columns. -/
theorem settle_columns [Spectrum.Routines] {data data' : Data} (h : data.UpToColumns data') :
    settle p data' = settle p data := by
  unfold settle
  rw [h.V, h.N]
  refine bind_congr fun V => bind_congr fun S => ?_
  rw [settleOver_eq, settleOver_eq, h.A, h.G]
  refine Source.vector_bind h.q _ _ fun q q' hq => bind_congr fun A => ?_
  refine Source.vector_bind h.b _ _ fun b b' hb => congrArg (· >>= _) ?_
  exact LinearProgram.assemble_columns hq hb h.g h.d h.u

end QuadraticProgram

/-! ## Variations -/

/-- Two variations agree, except that the vector of the first may be a column in the second. -/
inductive Variation.UpToColumn : Variation → Variation → Prop
  | linearTerm {q q' : Datum} (L : Datum) (h : q.UpToColumn q') :
      UpToColumn (.linearTerm q L) (.linearTerm q' L)
  | equality {q q' : Datum} (mu validate : Datum) (h : q.UpToColumn q') :
      UpToColumn (.equality mu q validate) (.equality mu q' validate)

namespace Variant

variable {p : Precision}

/-- A variation by a column is the variation by the vector. -/
theorem vary_columns [Spectrum.Routines] {v v' : Variation} (h : v.UpToColumn v') (W : Variant p) :
    W.vary v' = W.vary v := by
  cases h with
  | linearTerm L h => rw [vary, vary, withLinearTerm, withLinearTerm, h.toVector]
  | equality mu validate h => rw [vary, vary, withEquality, withEquality, h.toVector]

/-- So are many variations, one after the other. -/
theorem foldlM_columns [Spectrum.Routines] {vs vs' : List Variation}
    (h : List.Forall₂ Variation.UpToColumn vs vs') (W : Variant p) :
    vs'.foldlM vary W = vs.foldlM vary W := by
  induction h generalizing W with
  | nil => rfl
  | cons hv _ ih =>
    rw [List.foldlM_cons, List.foldlM_cons, vary_columns hv]
    exact bind_congr fun W' => ih W'

end Variant

/-! ## Outcomes -/

namespace Workspace

theorem inPrecision_congr {P : Precision → Type}
    {build build' : (p : Precision) → Except Fault (Repaired (P p))}
    (h : ∀ p, build' p = build p) (precision : Option Datum) :
    inPrecision build' precision = inPrecision build precision := by
  rw [funext h]

/-- The outcome of a construction, with its findings and lines, is the same if some of its vectors,
of any lengths, are handed in as columns, and so is that of variations, by one vector or by many,
one after the other. -/
theorem makes_agree_up_to_columns [Spectrum.Routines] :
    (∀ (w : Workspace) (collector : Collector) (precision : Option Datum)
      (data data' : LinearProgram.Data), data.UpToColumns data' →
        w.makeLinear collector precision data' = w.makeLinear collector precision data) ∧
    (∀ (w : Workspace) (collector : Collector) (precision : Option Datum)
      (data data' : QuadraticProgram.Data), data.UpToColumns data' →
        w.makeQuadratic collector precision data' = w.makeQuadratic collector precision data) ∧
    (∀ (p : Precision) (W : Variant p) (v v' : Variation), v.UpToColumn v' →
      W.vary v' = W.vary v) ∧
    ∀ (p : Precision) (P : QuadraticProgram p) (vs vs' : List Variation),
      List.Forall₂ Variation.UpToColumn vs vs' → P.varyAll vs' = P.varyAll vs := by
  refine ⟨fun w collector precision data data' h => ?_, fun w collector precision data data' h => ?_,
    fun p W v v' h => Variant.vary_columns h W, fun p P vs vs' h => ?_⟩
  · unfold makeLinear
    rw [h.N, inPrecision_congr fun p => LinearProgram.settle_columns h]
  · unfold makeQuadratic
    rw [h.N, inPrecision_congr fun p => QuadraticProgram.settle_columns h]
  · exact Variant.foldlM_columns h P.toVariant

/-- The vector of some integers, given as an array in some form. -/
def wordsAs (form : NumberArray → NumberArray) (entries : List ℤ) : Datum :=
  .array (form (.words (.ofList entries)))

/-- Two costs and two upper bounds without a constraint, with a lower bound for every entry of a
list. -/
def boundedCosts (form : NumberArray → NumberArray) (lower : List ℤ) : LinearProgram.Data where
  c := wordsAs form [1, 2]
  N := none
  region :=
    { A := .list []
      b := wordsAs form []
      G := none
      g := some (wordsAs form [])
      d := some (wordsAs form lower)
      u := some (wordsAs form [3, -1]) }

def linearTermed (form : NumberArray → NumberArray) : QuadraticProgram.Data where
  V := .list [.list [.integer 1]]
  N := none
  q := some (wordsAs form [5])
  A := none
  b := some (wordsAs form [1])
  G := none
  g := none
  d := none
  u := none

theorem upToColumn_wordsAs (entries : List ℤ) :
    (wordsAs id entries).UpToColumn (wordsAs NumberArray.column entries) :=
  .inr (Datum.columnOf_array rfl)

/-- Bounds in reverse order are exchanged, and a lower bound too many is refused, also if they come
as columns, and a linear term that comes as a column replaces another one. -/
theorem makes_agree_up_to_columns_boundedCosts :
    (boundedCosts id [0, 0]).UpToColumns (boundedCosts .column [0, 0]) ∧
    initial.makeLinear .own none (boundedCosts .column [0, 0]) =
      initial.makeLinear .own none (boundedCosts id [0, 0]) ∧
    (initial.makeLinear .own none (boundedCosts .column [0, 0])).findings.map Findings.messages =
      some [boundsSwappedMessage] ∧
    initial.makeLinear .own none (boundedCosts .column [0, 0, 0]) =
      ⟨.error (.rejected (.dimensionMismatch "d" [.integer 2] [3])), initial, none, []⟩ ∧
    initial.makeQuadratic .own none (linearTermed .column) =
      initial.makeQuadratic .own none (linearTermed id) ∧
    ∃ (built : Repaired (QuadraticProgram .standard)) (W : Variant .standard),
      QuadraticProgram.build .standard (linearTermed id) = .ok built ∧
      built.value.toVariant.vary (.linearTerm (wordsAs .column [3]) (.integer 2)) = .ok W ∧
      built.value.varyAll [.linearTerm (wordsAs .column [3]) (.integer 2)] = .ok W ∧
      W.q.entries = [Binary.ofInt Precision.standard.format (-6)] := by
  have hlinear (lower : List ℤ) :
      (boundedCosts id lower).UpToColumns (boundedCosts .column lower) :=
    ⟨upToColumn_wordsAs _, rfl, rfl, upToColumn_wordsAs _, rfl, .some (upToColumn_wordsAs _),
      .some (upToColumn_wordsAs _), .some (upToColumn_wordsAs _)⟩
  have hquadratic : (linearTermed id).UpToColumns (linearTermed .column) :=
    ⟨rfl, rfl, .some (upToColumn_wordsAs _), rfl, .some (upToColumn_wordsAs _), rfl, .none, .none,
      .none⟩
  have hterm : Variation.UpToColumn (.linearTerm (wordsAs id [3]) (.integer 2))
      (.linearTerm (wordsAs .column [3]) (.integer 2)) := .linearTerm _ (upToColumn_wordsAs _)
  obtain ⟨hmake, hmake', hvary, hvaryAll⟩ := makes_agree_up_to_columns
  have hagree (lower : List ℤ) := hmake initial .own none _ _ (hlinear lower)
  have hrun : (QuadraticProgram.build .standard (linearTermed id) >>= fun built =>
      built.value.toVariant.vary (.linearTerm (wordsAs id [3]) (.integer 2))).toOption.map
        (fun W => W.q.entries) = some [Binary.ofInt Precision.standard.format (-6)] := by
    decide +kernel
  obtain ⟨W, hW, hentries⟩ := Option.map_eq_some_iff.mp hrun
  obtain ⟨built, hbuild, hW⟩ := bind_eq_ok.mp (toOption_eq_some.mp hW)
  refine ⟨hlinear _, hagree _, ?_, ?_, hmake' _ _ _ _ _ hquadratic, built, W, hbuild, ?_, ?_,
    hentries⟩
  · rw [hagree]
    decide +kernel
  · rw [hagree]
    rfl
  · rw [hvary _ _ _ _ hterm]
    exact hW
  · rw [hvaryAll _ _ _ _ (.cons hterm .nil)]
    exact congrArg (· >>= pure) hW

end Workspace

end StandardForm
