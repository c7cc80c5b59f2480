import StandardForm.Proofs.Problem.Reconstruction
import StandardForm.Proofs.Problem.Symmetrization
import StandardForm.Proofs.Problem.Widening

/-!
# Constructions in both precisions

From arrays whose entries are all 64-bit numbers, a linear program is constructed in the extended
precision exactly when it is in the standard one, with the same numbers, and otherwise both
constructions report the same fault. Of a quadratic program one direction holds, since the
tolerance for negative eigenvalues is smaller in the extended precision: what is semidefinite there
is so in the standard precision. The only thing that can keep the two apart is the size of an array,
which takes twice as many bytes with 80-bit numbers.
-/

namespace StandardForm

/-! ## Quadratic terms -/

namespace Binary

/-- A moderate number is the mean of itself and itself. -/
theorem mean_self_of_moderate {p : Precision} {x : p.Entry} (h : x.Moderate) : mean x x = x := by
  cases x with
  | nan => cases h.1
  | num s r =>
    have hr := rung_le_of_moderate h (r := r) rfl
    have htop : (moderateBinades p.format + 1) * p.format.binade < p.format.top := by
      refine Nat.mul_lt_mul_of_pos_right ?_ p.format.binade_pos
      cases p <;> decide
    rw [Nat.succ_mul] at htop
    exact half_mul_add_self_num s r (doubles_of_lt (by omega))

theorem mean_zeroOf (f : FloatFormat) (s t : Bool) :
    mean (zeroOf s : Binary f) (zeroOf t) = zeroOf (s && t) := by
  have htop := f.top_ne_zero.symm
  have hsum : (zeroOf s : Binary f) + zeroOf t = zeroOf (s && t) := by
    rw [zeroOf, zeroOf, add_num _ _ _ _ htop htop]
    simp [signedUnits, f.units_zero]
  have hround := round_units (s && t) (⟨0, Nat.succ_pos _⟩ : Fin (f.top + 1)) Nat.two_pos
  rw [f.units_zero, Nat.zero_mul] at hround
  rw [mean, hsum, zeroOf, half_mul_num _ _ htop, f.units_zero, hround]

theorem moderate_widen {x : Double} (h : Moderate (f := .double) x) :
    Moderate (f := .extended) (widen x) := by
  refine ⟨(isFinite_widen x).trans h.1, ?_⟩
  rw [← (same_widen x).value_eq h.1]
  exact h.2

theorem widen_zeroOf (s : Bool) : widen (zeroOf s) = zeroOf s := by
  rw [widen, zeroOf, cast_num]
  exact congrArg (num s) (Fin.ext (castRung_eq_zero rfl))

/-- Equal numbers that are not the same are two zeros. -/
theorem exists_zeroOf_of_equals {f : FloatFormat} {x y : Binary f} (h : x.equals y = true)
    (hxy : x ≠ y) : ∃ s t, x = zeroOf s ∧ y = zeroOf t := by
  cases x with
  | nan => cases h
  | num s r =>
    cases y with
    | nan => cases h
    | num t q =>
      have hposition : position s r.val = position t q.val := beq_iff_eq.mp h
      have hrungs : r.val = q.val → s ≠ t := fun hrq hst => hxy (by rw [hst, Fin.ext hrq])
      have hzero : r.val = 0 ∧ q.val = 0 := by
        cases s <;> cases t <;>
          simp only [position, Bool.false_eq_true, if_true, if_false] at hposition <;>
          first
          | omega
          | exact absurd rfl (hrungs (by omega))
      exact ⟨s, t, congrArg (num s) (Fin.ext hzero.1), congrArg (num t) (Fin.ext hzero.2)⟩

/-- The mean of two equal numbers of moderate size is the same in both formats. -/
theorem mean_widen {x y : Double} (hx : Moderate (f := .double) x) (h : x.equals y = true) :
    mean (widen x) (widen y) = widen (mean x y) := by
  by_cases hxy : x = y
  · subst hxy
    have hself : mean x x = x := mean_self_of_moderate (p := .standard) hx
    rw [hself]
    exact mean_self_of_moderate (p := .extended) (moderate_widen hx)
  · obtain ⟨s, t, rfl, rfl⟩ := exists_zeroOf_of_equals h hxy
    rw [widen_zeroOf, widen_zeroOf, mean_zeroOf, mean_zeroOf, widen_zeroOf]

end Binary

namespace Tensor

theorem entryAt_map_widen (t : Tensor Double) (position : List ℕ) :
    (t.map Binary.widen).entryAt position = Binary.widen (t.entryAt position) := by
  have hzero : (0 : Binary .extended) = Binary.widen 0 := (Binary.widen_zeroOf false).symm
  rw [entryAt, entryAt, hzero, shape_map, entries_map, List.getD_map]

/-- A square matrix is symmetric, and all its numbers are moderate. -/
structure Balanced (t : Tensor Double) : Prop where
  moderate : ∀ x ∈ t.entries, Binary.Moderate (f := .double) x
  symmetric : ∀ n, t.shape = [n, n] → ∀ i < n, ∀ j < n,
    (t.entryAt [i, j]).equals (t.entryAt [j, i]) = true

theorem moderate_entryAt {t : Tensor Double}
    (h : ∀ x ∈ t.entries, Binary.Moderate (f := .double) x) (position : List ℕ) :
    Binary.Moderate (f := .double) (t.entryAt position) := by
  rw [entryAt, List.getD_eq_getElem?_getD]
  cases hentry : t.entries[offset t.shape position]? with
  | none => exact ⟨by decide, by decide +kernel⟩
  | some x => exact h x (List.mem_of_getElem? hentry)

/-- The symmetric part of a balanced matrix is the same in both formats. -/
theorem Balanced.symmetricPart_widen {t : Tensor Double} (h : t.Balanced) {n : ℕ}
    (hshape : t.shape = [n, n]) :
    (t.map Binary.widen).symmetricPart [n, n] = (t.symmetricPart [n, n]).map Binary.widen := by
  rw [symmetricPart, symmetricPart, map_ofFn]
  refine Tensor.ext rfl (List.map_congr_left fun position hposition => ?_)
  obtain ⟨i, hi, j, hj, rfl⟩ := mem_positions_matrix.mp hposition
  rw [entryAt_map_widen, entryAt_map_widen]
  exact Binary.mean_widen (moderate_entryAt h.moderate _) (h.symmetric n hshape i hi j hj)

end Tensor

namespace QuadraticProgram

def widen (P : QuadraticProgram .standard) : QuadraticProgram .extended :=
  { P.toRegion.widen with
    V := P.V.map Binary.widen, q := P.q.map Binary.widen, V_shape := P.V_shape,
    q_shape := P.q_shape }

theorem suggestedDimension_eq_of_shape {p q : Precision} {V : Tensor p.Entry} {W : Tensor q.Entry}
    (h : V.shape = W.shape) : suggestedDimension V = suggestedDimension W := by
  have hsize : V.size = W.size := by
    rw [Tensor.size, Tensor.size, V.length_entries, W.length_entries, h]
  rw [suggestedDimension, suggestedDimension, h, hsize]

/-- The quadratic term of a program that is settled has the demanded shape, passes the check and is
what the program is settled over. -/
theorem exists_term_of_settle [Spectrum.Routines] {p : Precision} {data : Data}
    {built : Repaired (QuadraticProgram p)} (h : settle p data = .ok built) :
    ∃ V, data.V.toTensor p.format = .ok V ∧
      ∀ n, data.N.getD (.integer (suggestedDimension V)) = n →
        fits [n, n] V.shape = .ok true ∧
        checkSemidefinite p (V.symmetricPart [n.dimension, n.dimension]) = .ok () ∧
        settleOver p data n ⟨V.symmetricPart [n.dimension, n.dimension], rfl⟩ = .ok built := by
  obtain ⟨V, hV, hrest⟩ := bind_eq_ok.mp h
  refine ⟨V, hV, fun n hn => ?_⟩
  subst hn
  obtain ⟨S, hS, -⟩ := bind_eq_ok.mp hrest
  obtain ⟨v, hv, -⟩ := bind_eq_ok.mp hS
  have hfits := Tensor.fits_of_require hv
  rw [settle_eq_symmetricPart hV rfl hfits] at h
  obtain ⟨⟨⟩, hpassed, hover⟩ := bind_eq_ok.mp h
  exact ⟨hfits, hpassed, hover⟩

theorem tolerance_lt : -tolerance .standard < -tolerance .extended := by decide +kernel

/-- What is semidefinite in the extended precision is so in the standard one. -/
theorem checkSemidefinite_of_widen [Spectrum.Routines] {S : Tensor Double}
    (h : checkSemidefinite .extended (S.map Binary.widen) = .ok ()) :
    checkSemidefinite .standard S = .ok () := by
  obtain ⟨lowest, hlowest, -⟩ := bind_eq_ok.mp h
  have habove := (checkSemidefinite_eq_ok hlowest).mp h
  have hlowest : Spectrum.leastEigenvalue S = .ok lowest :=
    (Spectrum.leastEigenvalue_widen S).symm.trans hlowest
  exact (checkSemidefinite_eq_ok hlowest).mpr (Binary.lt_trans tolerance_lt habove)

variable {room : Prop} {n : Datum} {data : Data}

/-- Over a widened quadratic term a program is settled as over the term. -/
theorem settleOver_widens [Spectrum.Routines] (h : ∀ d ∈ data.arrays, d.Widenable room)
    (hn : room → n.RoomyCount) (S : Shaped Double [n.dimension, n.dimension]) :
    Widens room (fun r : Repaired (QuadraticProgram .standard) =>
        (⟨r.value.widen, r.reversed⟩ : Repaired (QuadraticProgram .extended)))
      (settleOver .standard data n S) (settleOver .extended data n S.widen) := by
  have hoption {x : Option Datum}
      (hx : x ∈ [data.q, data.A, data.b, data.G, data.g, data.d, data.u]) :
      ∀ a ∈ x, a.Widenable room := fun a ha =>
    h a (List.mem_cons_of_mem _ (List.mem_filterMap.mpr ⟨x, hx, ha⟩))
  have hone : (Datum.integer 1).RoomyCount := Datum.roomyCount_natural (k := 1) (by decide)
  have hstandard := settleOver_eq (p := .standard) data n S
  have hextended := settleOver_eq (p := .extended) data n S.widen
  rw [hstandard, hextended]
  refine .bind_same fun q hq => .bind_same fun A hA => .bind_same fun b hb => ?_
  have hq := Source.widenable_of_vector (hoption (by simp)) hn hq
  have hA := Source.widenable_of_matrix (Nat.le_refl 1) (hoption (by simp)) hn hA
  have hb := Source.widenable_of_vector (hoption (by simp)) (fun _ => hone) hb
  refine (LinearProgram.assemble_widens hn hq hA hb (hoption (by simp)) (hoption (by simp))
    (hoption (by simp)) (hoption (by simp))).bind fun P _ => ?_
  exact LinearProgram.finish_widens (w := widen) (fun _ _ => rfl) P

/-- A quadratic program that is settled in the extended precision is settled in the standard one,
with the same numbers. -/
theorem exists_settle_of_extended [Spectrum.Routines] (h : ∀ d ∈ data.arrays, d.Exact)
    (hV : ∀ V, data.V.toTensor .double = .ok V → V.Balanced)
    {built' : Repaired (QuadraticProgram .extended)} (hbuilt' : settle .extended data = .ok built') :
    ∃ built, settle .standard data = .ok built ∧ built' = ⟨built.value.widen, built.reversed⟩ := by
  have hwidenable : ∀ d ∈ data.arrays, d.Widenable False := fun d hd => ⟨h d hd, False.elim⟩
  obtain ⟨V', hV', hterm'⟩ := exists_term_of_settle hbuilt'
  obtain ⟨V, hterm, rfl⟩ :=
    (Datum.toTensor_widens (hwidenable data.V (by simp [Data.arrays]))).exists_of_ok hV'
  obtain ⟨n, hn, hn'⟩ : ∃ n, data.N.getD (.integer (suggestedDimension (p := .standard) V)) = n ∧
      data.N.getD (.integer (suggestedDimension (p := .extended) (V.map Binary.widen))) = n :=
    ⟨_, rfl, congrArg (fun k : ℕ => data.N.getD (.integer k)) (suggestedDimension_eq_of_shape rfl)⟩
  obtain ⟨hfits, hpassed, hover⟩ := hterm' n hn'
  have hwiden := (hV V hterm).symmetricPart_widen (shape_eq_of_fits hfits)
  have hpassed := checkSemidefinite_of_widen (hwiden ▸ hpassed)
  let S : Shaped Double [n.dimension, n.dimension] :=
    ⟨V.symmetricPart [n.dimension, n.dimension], rfl⟩
  have hover : settleOver .extended data n S.widen = .ok built' :=
    (congrArg (settleOver .extended data n) (Subtype.ext hwiden.symm)).trans hover
  obtain ⟨built, hbuilt, rfl⟩ := (settleOver_widens hwidenable False.elim S).exists_of_ok hover
  have hsettle := settle_eq_symmetricPart (p := .standard) hterm hn hfits
  exact ⟨built, hsettle.trans (bind_eq_ok.mpr ⟨(), hpassed, hbuilt⟩), rfl⟩

end QuadraticProgram

/-! ## Agreement -/

/-- Two arrays have one shape and hold the same numbers. -/
def Tensor.Same {f g : FloatFormat} (t : Tensor (Binary f)) (s : Tensor (Binary g)) : Prop :=
  t.shape = s.shape ∧ List.Forall₂ Binary.Same t.entries s.entries

theorem Tensor.same_widen (t : Tensor Double) : t.Same (t.map Binary.widen) := by
  refine ⟨rfl, ?_⟩
  rw [entries_map, List.forall₂_map_right_iff]
  exact List.forall₂_same.mpr fun x _ => Binary.same_widen x

section Agreement

variable {p q : Precision}

/-- Two regions have the same dimensions and numbers. -/
structure Region.Agrees (R : Region p) (Q : Region q) : Prop where
  N : R.N = Q.N
  M : R.M = Q.M
  J : R.J = Q.J
  A : R.A.Same Q.A
  b : R.b.Same Q.b
  G : R.G.Same Q.G
  g : R.g.Same Q.g
  d : R.d.Same Q.d
  u : R.u.Same Q.u

structure LinearProgram.Agrees (P : LinearProgram p) (Q : LinearProgram q) : Prop where
  region : P.toRegion.Agrees Q.toRegion
  c : P.c.Same Q.c

structure QuadraticProgram.Agrees (P : QuadraticProgram p) (Q : QuadraticProgram q) : Prop where
  region : P.toRegion.Agrees Q.toRegion
  V : P.V.Same Q.V
  q : P.q.Same Q.q

end Agreement

theorem Region.agrees_widen (R : Region .standard) : R.Agrees R.widen :=
  ⟨rfl, rfl, rfl, R.A.same_widen, R.b.same_widen, R.G.same_widen, R.g.same_widen, R.d.same_widen,
    R.u.same_widen⟩

theorem LinearProgram.agrees_widen (P : LinearProgram .standard) : P.Agrees P.widen :=
  ⟨P.toRegion.agrees_widen, P.c.same_widen⟩

theorem QuadraticProgram.agrees_widen (P : QuadraticProgram .standard) : P.Agrees P.widen :=
  ⟨P.toRegion.agrees_widen, P.V.same_widen, P.q.same_widen⟩

namespace Workspace

variable (w : Workspace) (collector : Collector) {standard extended : Option Datum}

/-- A construction in a precision ends as one of the programs that its programs are made of. -/
theorem conclude_inPrecision {p : Precision} {precision : Option Datum} {α : Type}
    {P : Precision → Type} (hp : precisionOf precision = .ok p)
    (build : (p : Precision) → Except Fault (Repaired (P p))) (built : Except Fault (Repaired α))
    (convert : α → P p) (hbuilt : build p = built.map fun r => ⟨convert r.value, r.reversed⟩)
    (logger : String) (announce : ((p : Precision) × P p) → String) (count : Except Fault Unit) :
    let out := w.conclude collector logger (fun _ => "") count built
    let out' := w.conclude collector logger announce count (inPrecision build precision)
    out'.result = out.result.map (fun a => ⟨p, convert a⟩) ∧ out'.findings = out.findings ∧
      out'.workspace = out.workspace := by
  have hmap : inPrecision build precision =
      built.map fun r => ⟨⟨p, convert r.value⟩, r.reversed⟩ := by
    rw [inPrecision_eq hp, hbuilt]
    cases built <;> rfl
  rw [hmap]
  exact conclude_map w collector count (fun a => (⟨p, convert a⟩ : (p : Precision) × P p)) built

/-- From arrays of 64-bit numbers that are small enough, a linear program is constructed in both
precisions with the same dimensions and numbers and the same findings, or both constructions fail
with the same fault. A quadratic program with a symmetric term of moderate size that is constructed
in the extended precision is constructed in the standard one, with the same dimensions and
numbers. -/
theorem makes_agree_across_precisions [Spectrum.Routines]
    (hs : precisionOf standard = .ok .standard) (he : precisionOf extended = .ok .extended) :
    (∀ data : LinearProgram.Data, (∀ d ∈ data.arrays, d.Exact ∧ d.Roomy) →
      (∀ n ∈ data.N, n.RoomyCount) →
      let out := w.makeLinear collector standard data
      let out' := w.makeLinear collector extended data
      out'.findings = out.findings ∧ out'.workspace = out.workspace ∧
      ((∃ e, out.result = .error e ∧ out'.result = .error e) ∨
        ∃ P Q, out.result = .ok ⟨.standard, P⟩ ∧ out'.result = .ok ⟨.extended, Q⟩ ∧ P.Agrees Q)) ∧
    ∀ data : QuadraticProgram.Data, (∀ d ∈ data.arrays, d.Exact) →
      (∀ V, data.V.toTensor .double = .ok V → V.Balanced) →
      ∀ built, (w.makeQuadratic collector extended data).result = .ok built →
        ∃ P Q, (w.makeQuadratic collector standard data).result = .ok ⟨.standard, P⟩ ∧
          built = ⟨.extended, Q⟩ ∧ P.Agrees Q := by
  constructor
  · intro data h hN out out'
    have hwidenable : ∀ d ∈ data.arrays, d.Widenable True := fun d hd =>
      ⟨(h d hd).1, fun _ => (h d hd).2⟩
    have hsettle := (LinearProgram.settle_widens hwidenable fun _ => hN).eq trivial
    have hsame : LinearProgram.settle .standard data =
        (LinearProgram.settle .standard data).map fun r => ⟨id r.value, r.reversed⟩ := by
      cases LinearProgram.settle .standard data <;> rfl
    obtain ⟨hresult, hfindings, hworkspace⟩ := w.conclude_inPrecision collector hs
      (LinearProgram.settle · data) _ id hsame linearLogger
      (fun P => dimensionsText "LP" P.2.toRegion) (Region.requireCount data.N)
    obtain ⟨hresult', hfindings', hworkspace'⟩ := w.conclude_inPrecision collector he
      (LinearProgram.settle · data) _ LinearProgram.widen hsettle linearLogger
      (fun P => dimensionsText "LP" P.2.toRegion) (Region.requireCount data.N)
    refine ⟨hfindings'.trans hfindings.symm, hworkspace'.trans hworkspace.symm, ?_⟩
    have hresult : out.result = _ := hresult
    have hresult' : out'.result = _ := hresult'
    rw [hresult, hresult']
    cases (w.conclude collector linearLogger (fun _ => "") (Region.requireCount data.N)
      (LinearProgram.settle .standard data)).result with
    | error e => exact .inl ⟨e, rfl, rfl⟩
    | ok P => exact .inr ⟨P, P.widen, rfl, rfl, P.agrees_widen⟩
  · intro data h hV built hbuilt
    obtain ⟨r, hr, -⟩ := exists_of_result_conclude hbuilt
    rw [inPrecision_eq he] at hr
    obtain ⟨settled', hsettle', -⟩ := map_eq_ok.mp hr
    obtain ⟨settled, hsettle, rfl⟩ := QuadraticProgram.exists_settle_of_extended h hV hsettle'
    obtain ⟨hresult, -⟩ := w.conclude_inPrecision collector hs
      (QuadraticProgram.settle · data) (.ok settled) id hsettle quadraticLogger
      (fun P => dimensionsText "QP" P.2.toRegion) (Region.requireCount data.N)
    obtain ⟨hresult', -⟩ := w.conclude_inPrecision collector he
      (QuadraticProgram.settle · data) (.ok settled) QuadraticProgram.widen hsettle'
      quadraticLogger (fun P => dimensionsText "QP" P.2.toRegion) (Region.requireCount data.N)
    obtain ⟨P, hP, rfl⟩ := map_eq_ok.mp (hresult'.symm.trans hbuilt)
    rw [hP] at hresult
    exact ⟨P, P.widen, hresult, rfl, P.agrees_widen⟩

/-- One variable with its bounds in reverse order and a single equality. -/
def storedBounds : LinearProgram.Data where
  c := .ofTensor (f := .double) ⟨[1], [.ofInt .double 1], rfl⟩
  N := none
  region :=
    { A := .ofTensor (f := .double) ⟨[1, 1], [.ofInt .double 1], rfl⟩
      b := .ofTensor (f := .double) ⟨[1], [.ofInt .double 2], rfl⟩
      G := none
      g := none
      d := some (.ofTensor (f := .double) ⟨[1], [.infinity false], rfl⟩)
      u := some (.ofTensor (f := .double) ⟨[1], [.ofInt .double 0], rfl⟩) }

def definiteTerm : Tensor Double := ⟨[1, 1], [.ofInt .double 2], rfl⟩

theorem balanced_definiteTerm : definiteTerm.Balanced := by
  refine ⟨by decide +kernel, fun n hn => ?_⟩
  obtain rfl : n = 1 := by simpa [definiteTerm, eq_comm] using hn
  decide +kernel

theorem isSome_storedBounds :
    (initial.makeLinear .own none storedBounds).result.toOption.isSome = true := by
  decide +kernel

theorem isSome_definiteTerm :
    (initial.makeQuadratic .own (some (Precision.toDatum .extended))
      (.ofTerm (.ofTensor definiteTerm))).result.toOption.isSome = true := by
  decide +kernel

/-- A linear program with its bounds in reverse order and a quadratic one in both precisions. -/
theorem makes_agree_across_precisions_storedBounds :
    (∃ P Q, (initial.makeLinear .own none storedBounds).result = .ok ⟨.standard, P⟩ ∧
      (initial.makeLinear .own (some (Precision.toDatum .extended)) storedBounds).result =
        .ok ⟨.extended, Q⟩ ∧ P.Agrees Q) ∧
    ∃ P Q,
      (initial.makeQuadratic .own none (.ofTerm (.ofTensor definiteTerm))).result =
        .ok ⟨.standard, P⟩ ∧
      (initial.makeQuadratic .own (some (Precision.toDatum .extended))
        (.ofTerm (.ofTensor definiteTerm))).result = .ok ⟨.extended, Q⟩ ∧ P.Agrees Q := by
  have hstandard : precisionOf none = .ok .standard := rfl
  obtain ⟨hlinear, hquadratic⟩ :=
    makes_agree_across_precisions initial .own hstandard (precisionOf_toDatum .extended)
  constructor
  · have hstored : ∀ d ∈ storedBounds.arrays, d.Exact ∧ d.Roomy := by
      simp only [LinearProgram.Data.arrays, Region.Data.arrays, storedBounds]
      rintro d (_ | ⟨_, _ | ⟨_, _ | ⟨_, _ | ⟨_, _ | ⟨_, ⟨⟩⟩⟩⟩⟩⟩) <;>
        exact ⟨Datum.exact_ofTensor _, Datum.roomy_ofTensor (by decide)⟩
    obtain ⟨-, -, ⟨e, he, -⟩ | hagree⟩ := hlinear storedBounds hstored fun n hn => by cases hn
    · have hsome := isSome_storedBounds
      rw [he] at hsome
      cases hsome
    · exact hagree
  · have hexact : ∀ d ∈ (QuadraticProgram.Data.ofTerm (.ofTensor definiteTerm)).arrays, d.Exact :=
      List.forall_mem_singleton.mpr (Datum.exact_ofTensor definiteTerm)
    have hV : (Datum.ofTensor definiteTerm).toTensor .double = .ok definiteTerm :=
      Datum.toTensor_ofTensor (by decide) (by decide)
    have hbalanced (V : Tensor Double)
        (hV' : (Datum.ofTensor definiteTerm).toTensor .double = .ok V) : V.Balanced :=
      Except.ok.inj (hV.symm.trans hV') ▸ balanced_definiteTerm
    obtain ⟨built, hbuilt⟩ := Option.isSome_iff_exists.mp isSome_definiteTerm
    have hbuilt := toOption_eq_some.mp hbuilt
    obtain ⟨P, Q, hP, rfl, hagree⟩ := hquadratic _ hexact hbalanced built hbuilt
    exact ⟨P, Q, hP, hbuilt, hagree⟩

/-- One variable and no equalities, the coefficients being an array without rows that is too wide
for 80-bit numbers. -/
def wideEqualities : LinearProgram.Data where
  c := .ofTensor (f := .double) ⟨[1], [.ofInt .double 1], rfl⟩
  N := none
  region :=
    { A := .ofTensor (f := .double) ⟨[0, 2 ^ 59], [], by simp⟩
      b := .ofTensor (f := .double) ⟨[0], [], rfl⟩
      G := none
      g := none
      d := none
      u := none }

/-- An array without entries that has no room in the extended precision fails there for its size,
in the standard precision for its shape. -/
theorem makes_not_agree_wideEqualities :
    (∀ d ∈ wideEqualities.arrays, d.Exact) ∧
    (initial.makeLinear .own none wideEqualities).result =
      .error (.rejected (.dimensionMismatch "A" [.integer 0, .integer 1] [0, 2 ^ 59])) ∧
    (initial.makeLinear .own (some (Precision.toDatum .extended)) wideEqualities).result =
      .error .malformed := by
  have hexact : ∀ d ∈ wideEqualities.arrays, d.Exact := by
    simp only [LinearProgram.Data.arrays, Region.Data.arrays, wideEqualities]
    rintro d (_ | ⟨_, _ | ⟨_, _ | ⟨_, ⟨⟩⟩⟩⟩) <;> exact Datum.exact_ofTensor _
  refine ⟨hexact, ?_, ?_⟩
  · rfl
  · rfl

end Workspace

end StandardForm
