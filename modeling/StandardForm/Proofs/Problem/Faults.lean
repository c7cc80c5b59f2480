import StandardForm.Proofs.Binary.Monotone
import StandardForm.Proofs.Datum.Filled
import StandardForm.Proofs.Problem.Box
import StandardForm.Proofs.Problem.Construction
import StandardForm.Proofs.Problem.Refusals
import StandardForm.Proofs.Spectrum.Diagonal

/-!
# The faults of constructions from arrays

Where the number of variables is read from the data and every array can be converted, a construction
ends with a program or a rejection, unless one of the numerical routines comes to no end: that for
ranks on the equalities, as it does if there is a NaN among their numbers, or that for eigenvalues
on the quadratic term. Every other step of a construction finds what it needs, because what is left
out is filled to a number of entries that a given array has, and the quadratic term is square before
its eigenvalues are asked for.
-/

namespace StandardForm

/-- Something has been made, or it has been rejected. -/
def Decided {α : Type} (x : Except Fault α) : Prop :=
  (∃ a, x = .ok a) ∨ ∃ r, x = .error (.rejected r)

namespace Decided

variable {α β : Type}

theorem ok (a : α) : Decided (.ok a) := .inl ⟨a, rfl⟩

theorem rejected (r : Rejection) : Decided (.error (.rejected r) : Except Fault α) := .inr ⟨r, rfl⟩

/-- A chain is decided if each of its steps is. -/
theorem bind {x : Except Fault α} {g : α → Except Fault β} (hx : Decided x)
    (hg : ∀ a, x = .ok a → Decided (g a)) : Decided (x >>= g) := by
  rcases hx with ⟨a, rfl⟩ | ⟨r, rfl⟩
  · exact hg a rfl
  · exact .rejected r

theorem map {x : Except Fault α} (h : Decided x) (g : α → β) : Decided (x.map g) := by
  rcases h with ⟨a, rfl⟩ | ⟨r, rfl⟩
  · exact .ok (g a)
  · exact .rejected r

end Decided

/-! ## Shapes -/

theorem exists_fits_naturals (expected shape : List ℕ) :
    ∃ b, fits (expected.map fun n : ℕ => Datum.integer n) shape = .ok b := by
  induction expected generalizing shape with
  | nil => cases shape <;> exact ⟨_, rfl⟩
  | cons n expected ih =>
    cases shape with
    | nil => exact ⟨_, rfl⟩
    | cons m shape =>
      have hn : (Datum.integer n).naturalValue? = .ok (some n) := rfl
      rw [List.map_cons, fits, hn]
      dsimp only
      split
      · exact ih shape
      · exact ⟨_, rfl⟩

theorem decided_requireShape (name : String) (expected shape : List ℕ) :
    Decided (requireShape name (expected.map fun n : ℕ => Datum.integer n) shape) := by
  obtain ⟨b, hb⟩ := exists_fits_naturals expected shape
  fun_cases requireShape name (expected.map fun n : ℕ => Datum.integer n) shape with
  | case1 e h => cases hb.symm.trans h
  | case2 h => exact .ok _
  | case3 h => exact .rejected _

namespace Tensor

theorem decided_require {α : Type} (name : String) (expected : List ℕ) (t : Tensor α) :
    Decided (t.require name (expected.map fun n : ℕ => Datum.integer n)) :=
  (decided_requireShape name expected t.shape).bind fun _ _ => .ok _

end Tensor

/-! ## Conversions -/

variable {p : Precision} {d : Datum} {m n : ℕ} {name : String}

def Datum.Converts (p : Precision) (d : Datum) : Prop := ∃ t, d.toTensor p.format = .ok t

theorem Datum.converts_iff {d : Datum} :
    d.Converts p ↔ (d.toTensor p.format).toOption.isSome = true := by
  rw [Option.isSome_iff_exists]
  simp only [toOption_eq_some]
  rfl

instance (d : Datum) : Decidable (d.Converts p) := decidable_of_iff _ Datum.converts_iff.symm

theorem Datum.exists_vectorLength (h : d.Converts p) : ∃ k, d.vectorLength = .ok k := by
  obtain ⟨t, ht⟩ := h
  exact ⟨_, vectorLength_of_toTensor ht⟩

theorem storable_volume {f : FloatFormat} {shape : List ℕ} (h : Storable f shape) :
    Storable f [volume shape] := by
  by_cases hzero : 0 ∈ shape
  · have hvolume : volume shape = 0 := by
      clear h
      induction shape with
      | nil => cases hzero
      | cons k shape ih =>
        rcases List.mem_cons.mp hzero with rfl | hmem
        · simp
        · simp [ih hmem]
    rw [hvolume]
    cases f <;> decide
  · have hfilter : shape.filter (· ≠ 0) = shape := by
      refine List.filter_eq_self.mpr fun k hk => ?_
      simpa using fun h : k = 0 => hzero (h ▸ hk)
    rw [Storable, hfilter] at h
    by_cases hvolume : volume shape = 0
    · rw [hvolume]
      cases f <;> decide
    · simpa [Storable, hvolume] using h

theorem Storable.of_square {f : FloatFormat} (h : Storable f [n, n]) : Storable f [n] := by
  cases n with
  | zero => cases f <;> decide
  | succ n => exact h.of_rows

/-- As many entries as a given array has can exist as a vector. -/
theorem Storable.of_vectorLength (h : d.Converts p) (hlength : d.vectorLength = .ok n) :
    Storable p.format [n] := by
  obtain ⟨t, ht⟩ := h
  obtain rfl : t.size = n :=
    Except.ok.inj ((Datum.vectorLength_of_toTensor ht).symm.trans hlength)
  rw [Tensor.size, t.length_entries]
  exact storable_volume (Storable.of_toTensor ht)

theorem Datum.decided_toVector (h : d.Converts p) :
    Decided (d.toVector p.format name (.integer n)) := by
  obtain ⟨t, ht⟩ := h
  rw [toVector, ht]
  exact Tensor.decided_require name [n] _

theorem Datum.decided_toMatrix (h : d.Converts p) (hn : Storable p.format [n]) :
    Decided (d.toMatrix p.format name (.integer m) (.integer n)) := by
  obtain ⟨t, ht⟩ := h
  have hrequire (t : Tensor p.Entry) := Tensor.decided_require name [m, n] t
  rw [toMatrix, ht, ok_bind]
  split
  · have hm : (Datum.integer m).naturalValue? = .ok (some m) := rfl
    rw [hm, ok_bind]
    split
    · have hlengths : shapeOfLengths [0, (n : ℤ)] = .ok [0, n] :=
        shapeOfLengths_naturals (storable_noRows_iff.mpr hn.double)
      have hsize : requireSize p.format [0, n] = .ok () :=
        requireSize_eq_ok.mpr (storable_noRows_iff.mpr hn)
      rw [axisLength_natural hn, ok_bind, hlengths, ok_bind, hsize, ok_bind]
      exact hrequire _
    · exact hrequire _
  · exact hrequire _

namespace Source

/-- A given array can be converted, a filled one can exist. -/
def Converts (p : Precision) : Source → Prop
  | given d => d.Converts p
  | filled shape _ => Storable p.format shape

variable {s : Source}

theorem decided_fillTo {shape : List ℕ} {x : Double} (h : Storable p.format shape)
    (expected : List ℕ) :
    Decided (fillTo p.format name shape x (expected.map fun n : ℕ => Datum.integer n)) := by
  rw [fillTo, requireSize_eq_ok.mpr h, ok_bind]
  exact (decided_requireShape name expected shape).bind fun _ _ => .ok _

theorem decided_toVector (h : s.Converts p) :
    Decided (s.toVector p.format name (.integer n)) := by
  cases s with
  | given d => exact Datum.decided_toVector h
  | filled shape x => exact decided_fillTo h [n]

theorem decided_toMatrix (h : s.Converts p) (hn : Storable p.format [n]) :
    Decided (s.toMatrix p.format name (.integer m) (.integer n)) := by
  cases s with
  | given d => exact Datum.decided_toMatrix h hn
  | filled shape x => exact decided_fillTo h [m, n]

theorem exists_size (h : s.Converts p) : ∃ k, s.size = .ok k := by
  cases s with
  | given d => exact Datum.exists_vectorLength h
  | filled shape x => exact ⟨_, rfl⟩

theorem exists_vector {d : Option Datum} (h : ∀ a ∈ d, a.Converts p) (hn : Storable p.format [n])
    (x : Double) : ∃ s, vector d (.integer n) x = .ok s ∧ s.Converts p := by
  cases d with
  | none => exact ⟨_, vector_none hn x, hn⟩
  | some d => exact ⟨_, rfl, h d rfl⟩

theorem exists_matrix {d : Option Datum} {rows : ℕ} (hrows : rows ≤ 1)
    (h : ∀ a ∈ d, a.Converts p) (hn : Storable p.format [n]) (x : Double) :
    ∃ s, matrix d rows (.integer n) x = .ok s ∧ s.Converts p := by
  cases d with
  | none =>
    refine ⟨_, matrix_none hrows hn x, ?_⟩
    rcases Nat.le_one_iff_eq_zero_or_eq_one.mp hrows with rfl | rfl
    · exact storable_noRows_iff.mpr hn
    · exact storable_oneRow_iff.mpr hn
  | some d => exact ⟨_, rfl, h d rfl⟩

end Source

namespace LinearProgram

/-- From arrays that can be converted a program is assembled unless a shape is rejected. -/
theorem decided_assemble {costs A b : Source} {G g d u : Option Datum}
    (hn : Storable p.format [n]) (hcosts : costs.Converts p) (hA : A.Converts p)
    (hb : b.Converts p) (hG : ∀ a ∈ G, a.Converts p) (hg : ∀ a ∈ g, a.Converts p)
    (hd : ∀ a ∈ d, a.Converts p) (hu : ∀ a ∈ u, a.Converts p) :
    Decided (assemble p (.integer n) name costs A b G g d u) := by
  have hzero : Storable p.format [0] := by cases p <;> decide
  obtain ⟨u', hu', hu⟩ := Source.exists_vector hu hn (.infinity false)
  obtain ⟨d', hd', hd⟩ := Source.exists_vector hd hn 0
  obtain ⟨G', hG', hG⟩ := Source.exists_matrix (Nat.zero_le 1) hG hn 0
  obtain ⟨g', hg', hg⟩ := Source.exists_vector hg hzero 0
  obtain ⟨M, hM⟩ := Source.exists_size hb
  obtain ⟨J, hJ⟩ := Source.exists_size hg
  have hg' : Source.vector g (.integer 0) 0 = .ok g' := hg'
  simp only [assemble, hu', hd', hG', hg', hM, hJ, ok_bind]
  refine (Source.decided_toMatrix hA hn).bind fun _ _ => ?_
  refine (Source.decided_toMatrix hG hn).bind fun _ _ => ?_
  refine (Source.decided_toVector hcosts).bind fun _ _ => ?_
  refine (Source.decided_toVector hd).bind fun _ _ => ?_
  refine (Source.decided_toVector hu).bind fun _ _ => ?_
  refine (Source.decided_toVector hb).bind fun _ _ => ?_
  exact (Source.decided_toVector hg).bind fun _ _ => .ok _

end LinearProgram

/-! ## Ranks -/

namespace Equalities

variable {f : FloatFormat} {A b : Tensor (Binary f)}

theorem decided_verdict (k rankA rankAb : ℕ) : Decided (verdict A k rankA rankAb) := by
  unfold verdict
  split
  · exact .rejected _
  split
  · exact .rejected _
  · exact .ok _

section Check

variable [Spectrum.Routines]

def HasRanks (A b : Tensor (Binary f)) : Prop :=
  (∃ r, Spectrum.rank A = .ok r) ∧ ∃ r, Spectrum.rankBeside A b = .ok r

theorem hasRanks_iff : HasRanks A b ↔
    (Spectrum.rank A).toOption.isSome = true ∧
      (Spectrum.rankBeside A b).toOption.isSome = true := by
  simp only [HasRanks, Option.isSome_iff_exists, toOption_eq_some]

instance : Decidable (HasRanks A b) := decidable_of_iff _ hasRanks_iff.symm

/-- Equalities are accepted or rejected exactly if they have ranks. -/
theorem check_cases (hA : A.shape = [m, n]) (hb : b.shape = [m]) :
    Decided (check A b) ∧ HasRanks A b ∨
      check A b = .error .undefinedSpectrum ∧ ¬ HasRanks A b := by
  rcases Nat.eq_zero_or_pos m with rfl | hm
  · have hrows : (A.map (Binary.cast .double)).rows.length = 0 := Tensor.length_rows hA
    refine .inl ⟨check_empty hA ▸ .ok _, ⟨0, ?_⟩, 0, ?_⟩
    · rw [Spectrum.rank_matrix hA]
      exact Spectrum.rankOfRows_eq_ok.mpr (.inl ⟨by rw [hrows, Nat.zero_mul], rfl⟩)
    · rw [Spectrum.rankBeside_matrix hA hb, if_pos rfl]
      refine Spectrum.rankOfRows_eq_ok.mpr (.inl ⟨?_, rfl⟩)
      rw [Spectrum.length_rowsBeside hA hb, Nat.zero_mul]
  rw [check_matrix hA hm]
  cases hrank : Spectrum.rank A with
  | error e =>
    obtain rfl : e = .undefinedSpectrum := by
      rw [Spectrum.rank_matrix hA] at hrank
      exact Spectrum.eq_of_rankOfRows_error hrank
    exact .inr ⟨rfl, fun ⟨⟨r, hr⟩, _⟩ => by cases hrank.symm.trans hr⟩
  | ok rankA =>
    cases hbeside : Spectrum.rankBeside A b with
    | error e =>
      obtain rfl : e = .undefinedSpectrum := by
        rw [Spectrum.rankBeside_matrix hA hb, if_pos rfl] at hbeside
        exact Spectrum.eq_of_rankOfRows_error hbeside
      exact .inr ⟨rfl, fun ⟨_, r, hr⟩ => by cases hbeside.symm.trans hr⟩
    | ok rankAb =>
      exact .inl ⟨decided_verdict m rankA rankAb, ⟨rankA, hrank⟩, rankAb, hbeside⟩

end Check

end Equalities

/-! ## Constructions -/

namespace Region

variable [Spectrum.Routines]

def HasRanks (R : Region p) : Prop := Equalities.HasRanks R.A R.b

instance (R : Region p) : Decidable R.HasRanks :=
  inferInstanceAs (Decidable (Equalities.HasRanks R.A R.b))

theorem hasRanks_of_nanFree [Spectrum.ConvergentRank] {R : Region p} (hA : NaNFree R.A.entries)
    (hb : NaNFree R.b.entries) : R.HasRanks :=
  ⟨Spectrum.exists_rank R.A_shape hA, Spectrum.exists_rankBeside R.A_shape R.b_shape hA hb⟩

theorem nanFree_of_hasRanks [Spectrum.LawfulRank] {R : Region p} (h : R.HasRanks) :
    NaNFree R.A.entries ∧ NaNFree R.b.entries := by
  obtain ⟨-, r, hr⟩ := h
  exact Spectrum.nanFree_of_rankBeside R.A_shape R.b_shape hr

end Region

def Region.Data.arrays (R : Region.Data) : List Datum :=
  R.A :: R.b :: [R.G, R.g, R.d, R.u].filterMap id

def LinearProgram.Data.arrays (data : LinearProgram.Data) : List Datum :=
  data.c :: data.region.arrays

def QuadraticProgram.Data.arrays (data : QuadraticProgram.Data) : List Datum :=
  data.V :: [data.q, data.A, data.b, data.G, data.g, data.d, data.u].filterMap id

/-- The region of a linear program before it is checked. -/
def LinearProgram.region (p : Precision) (data : LinearProgram.Data) :
    Except Fault (Region p) := do
  let n ← data.count
  let R := data.region
  let P ← assemble p n "c" (.given data.c) (.given R.A) (.given R.b) R.G R.g R.d R.u
  return P.1.toRegion

/-- The symmetric part of a quadratic term, before anything is required of its eigenvalues. -/
def QuadraticProgram.term (p : Precision) (data : QuadraticProgram.Data) :
    Except Fault (Tensor p.Entry) := do
  let V ← data.V.toTensor p.format
  let n := data.N.getD (.integer (suggestedDimension V))
  let V ← V.require "V" [n, n]
  return V.1.symmetricPart [n.dimension, n.dimension]

/-- The region of a quadratic program before it is checked, found after its quadratic term has been
settled. -/
def QuadraticProgram.region [Spectrum.Routines] (p : Precision) (data : QuadraticProgram.Data) :
    Except Fault (Region p) := do
  let V ← data.V.toTensor p.format
  let n := data.N.getD (.integer (suggestedDimension V))
  let _ ← semidefinitePart p V n
  let q ← Source.vector data.q n 0
  let A ← Source.matrix data.A 1 n (.ofInt .double 1)
  let b ← Source.vector data.b (.integer 1) (.ofInt .double 1)
  let P ← LinearProgram.assemble p n "q" q A b data.G data.g data.d data.u
  return P.1.toRegion

/-- The quadratic term is a square matrix, and the routine for eigenvalues comes to no end on its
symmetric part. -/
def QuadraticProgram.NoEigenvalue [Spectrum.Routines] (p : Precision)
    (data : QuadraticProgram.Data) : Prop :=
  ∃ S, term p data = .ok S ∧ Spectrum.leastEigenvalue S = .error .undefinedSpectrum

/-- What becomes of a region: something is made or rejected if the equalities have ranks, and the
ranks are found to be undefined otherwise. -/
def DecidedByRanks [Spectrum.Routines] {α : Type} (region : Except Fault (Region p))
    (x : Except Fault α) : Prop :=
  Decided x ∧ (∀ R, region = .ok R → R.HasRanks) ∨
    x = .error .undefinedSpectrum ∧ ∃ R, region = .ok R ∧ ¬ R.HasRanks

namespace DecidedByRanks

variable [Spectrum.Routines] {α β : Type}

theorem decided {region : Except Fault (Region p)} {x : Except Fault α}
    (h : DecidedByRanks region x) (hranks : region.toOption.all (·.HasRanks) = true) :
    Decided x := by
  rcases h with ⟨h, -⟩ | ⟨-, R, hR, hnan⟩
  · exact h
  · rw [toOption_eq_some.mpr hR] at hranks
    exact absurd (decide_eq_true_iff.mp hranks) hnan

theorem undefined {region : Except Fault (Region p)} {x : Except Fault α}
    (h : DecidedByRanks region x) (hnan : region.toOption.any (!·.HasRanks) = true) :
    x = .error .undefinedSpectrum := by
  rcases h with ⟨-, hranks⟩ | ⟨h, -⟩
  · cases region with
    | error e => cases hnan
    | ok R => simp [Except.toOption, hranks R rfl] at hnan
  · exact h

/-- A step in common that is decided may come first. -/
theorem bind {x : Except Fault α} {region : α → Except Fault (Region p)}
    {g : α → Except Fault β} (hx : Decided x)
    (h : ∀ a, x = .ok a → DecidedByRanks (region a) (g a)) :
    DecidedByRanks (x >>= region) (x >>= g) := by
  rcases hx with ⟨a, rfl⟩ | ⟨r, rfl⟩
  · exact h a rfl
  · exact .inl ⟨.rejected r, fun R h => by cases h⟩

theorem map {region : Except Fault (Region p)} {x : Except Fault α}
    (h : DecidedByRanks region x) (g : α → β) : DecidedByRanks region (x.map g) := by
  rcases h with ⟨h, hranks⟩ | ⟨rfl, hranks⟩
  · exact .inl ⟨h.map g, hranks⟩
  · exact .inr ⟨rfl, hranks⟩

/-- A region is checked before anything is made of it. -/
theorem check (R : Region p) (a : α) :
    DecidedByRanks (.ok R) (R.check >>= fun _ => .ok a) := by
  have hbounds : Decided (R.checkBounds >>= fun _ => Except.ok a) := by
    unfold Region.checkBounds
    split
    · exact .rejected _
    split
    · exact .rejected _
    · exact .ok a
  rw [Region.check]
  rcases Equalities.check_cases R.A_shape R.b_shape with ⟨h, hranks⟩ | ⟨h, hnone⟩
  · refine .inl ⟨?_, fun R' hR' => by cases hR'; exact hranks⟩
    rcases h with ⟨⟨⟩, h⟩ | ⟨r, h⟩
    · rw [h]
      exact hbounds
    · rw [h]
      exact .rejected r
  · rw [h]
    exact .inr ⟨rfl, R, rfl, hnone⟩

end DecidedByRanks

namespace QuadraticProgram

theorem term_eq {data : Data} {V : Tensor p.Entry} (hN : data.N = none)
    (hV : data.V.toTensor p.format = .ok V) :
    term p data =
      V.require "V" ([suggestedDimension V, suggestedDimension V].map fun n : ℕ => .integer n) >>=
        fun V' => .ok (V'.1.symmetricPart [suggestedDimension V, suggestedDimension V]) := by
  rw [term, hV, hN]
  rfl

end QuadraticProgram

section Settled

variable [Spectrum.Routines]

namespace QuadraticProgram

theorem decided_checkSemidefinite {V : Tensor p.Entry} {lowest : Double}
    (h : Spectrum.leastEigenvalue V = .ok lowest) : Decided (checkSemidefinite p V) := by
  rw [checkSemidefinite, h, ok_bind]
  split
  · exact .ok _
  · exact .rejected _

/-- The quadratic term is settled, or it is a matrix without a least eigenvalue. -/
theorem semidefinitePart_cases {data : Data} {V : Tensor p.Entry} (hN : data.N = none)
    (hV : data.V.toTensor p.format = .ok V) :
    semidefinitePart p V (.integer (suggestedDimension V)) = .error .undefinedSpectrum ∧
        NoEigenvalue p data ∨
      Decided (semidefinitePart p V (.integer (suggestedDimension V))) ∧ ¬ NoEigenvalue p data := by
  have hpart : semidefinitePart p V (.integer (suggestedDimension V)) =
      V.require "V" ([suggestedDimension V, suggestedDimension V].map fun n : ℕ => .integer n) >>=
        fun V' => checkSemidefinite p
          (V'.1.symmetricPart [suggestedDimension V, suggestedDimension V]) >>= fun _ =>
            .ok ⟨V'.1.symmetricPart [suggestedDimension V, suggestedDimension V], rfl⟩ := rfl
  rw [hpart, NoEigenvalue, term_eq hN hV]
  rcases Tensor.decided_require "V" [suggestedDimension V, suggestedDimension V] V with
    ⟨V', hV'⟩ | ⟨r, hr⟩
  · rw [hV', ok_bind, ok_bind]
    cases hleast : Spectrum.leastEigenvalue
        (V'.1.symmetricPart [suggestedDimension V, suggestedDimension V]) with
    | error e =>
      obtain rfl := Spectrum.eq_of_leastEigenvalue_error rfl hleast
      refine .inl ⟨?_, _, rfl, hleast⟩
      rw [checkSemidefinite, hleast]
      rfl
    | ok lowest =>
      refine .inr ⟨(decided_checkSemidefinite hleast).bind fun _ _ => .ok _, ?_⟩
      rintro ⟨S, hS, hnone⟩
      cases hS
      cases hleast.symm.trans hnone
  · rw [hr]
    exact .inr ⟨.rejected r, fun ⟨S, hS, _⟩ => by cases hS⟩

/-- There is a least eigenvalue if the quadratic term has a single entry or its symmetric part is
finite. -/
theorem not_noEigenvalue [Spectrum.ConvergentEigenvalue] {data : Data} {S : Tensor p.Entry}
    (hS : term p data = .ok S) (h : S.shape = [1, 1] ∨ Spectrum.FiniteEntries S) :
    ¬ NoEigenvalue p data := by
  rintro ⟨S', hS', hnone⟩
  cases hS.symm.trans hS'
  obtain ⟨V, -, hS⟩ := bind_eq_ok.mp hS
  obtain ⟨V', -, rfl⟩ := map_eq_ok.mp hS
  obtain ⟨x, hx⟩ := Spectrum.exists_leastEigenvalue rfl
    (h.imp_left fun h => (List.cons.inj h).1)
  cases hnone.symm.trans hx

end QuadraticProgram

theorem LinearProgram.decided_settle {data : LinearProgram.Data} (hN : data.N = none)
    (h : ∀ d ∈ data.arrays, d.Converts p) : DecidedByRanks (region p data) (settle p data) := by
  have hc : data.c.Converts p := h _ (by simp [Data.arrays])
  obtain ⟨n, hn⟩ := Datum.exists_vectorLength hc
  have hcount : data.count = .ok (.integer n) := by
    rw [Data.count, hN, hn]
    rfl
  rw [region, settle_eq, hcount, ok_bind, ok_bind]
  refine .bind (decided_assemble (Storable.of_vectorLength hc hn) hc ?_ ?_ ?_ ?_ ?_ ?_)
    fun P _ => .check P.1.toRegion _
  · exact h _ (by simp [Data.arrays, Region.Data.arrays])
  · exact h _ (by simp [Data.arrays, Region.Data.arrays])
  all_goals
    intro a ha
    exact h a (by simp [Data.arrays, Region.Data.arrays, Option.mem_def.mp ha])

theorem QuadraticProgram.decided_settle {data : Data} (hN : data.N = none)
    (h : ∀ d ∈ data.arrays, d.Converts p) :
    settle p data = .error .undefinedSpectrum ∧ NoEigenvalue p data ∨
      DecidedByRanks (region p data) (settle p data) ∧ ¬ NoEigenvalue p data := by
  obtain ⟨V, hV⟩ := h data.V (by simp [Data.arrays])
  have hgiven (d : Option Datum)
      (hd : d ∈ [data.q, data.A, data.b, data.G, data.g, data.d, data.u]) :
      ∀ a ∈ d, a.Converts p := by
    intro a ha
    refine h a (List.mem_cons_of_mem _ (List.mem_filterMap.mpr ⟨d, hd, ?_⟩))
    exact Option.mem_def.mp ha
  have hpart := semidefinitePart_cases hN hV
  unfold region settle
  rw [hN, hV, ok_bind, ok_bind]
  dsimp only [Option.getD_none]
  refine hpart.imp (fun ⟨hnone, h⟩ => ⟨by rw [hnone]; rfl, h⟩) fun ⟨hdecided, h⟩ => ⟨?_, h⟩
  refine .bind hdecided fun S hS => ?_
  have hn : Storable p.format [suggestedDimension V] := by
    obtain ⟨V', hV', -⟩ := bind_eq_ok.mp hS
    have hsquare := Storable.of_toTensor hV
    rw [← Tensor.eq_of_require hV', V'.2] at hsquare
    exact .of_square hsquare
  obtain ⟨q, hq, hqc⟩ := Source.exists_vector (hgiven data.q (by simp)) hn 0
  obtain ⟨A, hA, hAc⟩ := Source.exists_matrix (Nat.le_refl 1) (hgiven data.A (by simp)) hn
    (.ofInt .double 1)
  obtain ⟨b, hb, hbc⟩ := Source.exists_vector (p := p) (n := 1) (hgiven data.b (by simp))
    (by cases p <;> decide) (.ofInt .double 1)
  have hb : Source.vector data.b (.integer 1) (.ofInt .double 1) = .ok b := hb
  rw [settleOver_eq, hq, hA, hb]
  simp only [ok_bind]
  exact .bind (LinearProgram.decided_assemble hn hqc hAc hbc (hgiven data.G (by simp))
    (hgiven data.g (by simp)) (hgiven data.d (by simp)) (hgiven data.u (by simp)))
    fun P _ => .check P.1.toRegion _

end Settled

namespace Workspace

/-- A construction from arrays that can be converted, the number of variables being left out, ends
with a program or a rejection if the equalities have ranks, and otherwise fails for that reason once
the arrays fit together. Before that, a construction of a quadratic program fails exactly if the
routine for eigenvalues comes to no end on the symmetric part of the quadratic term. Equalities
without a NaN have ranks if the routine for ranks comes to an end on them, and those with one have
none. If the routine for eigenvalues comes to an end on single entries and on finite matrices, the
part on which it does not has two or more rows and is not finite. -/
theorem makes_decided_by_ranks [Spectrum.Routines] (w : Workspace) (collector : Collector)
    {precision : Option Datum} (hp : precisionOf precision = .ok p) :
    (∀ data : LinearProgram.Data, data.N = none → (∀ d ∈ data.arrays, d.Converts p) →
      DecidedByRanks (LinearProgram.region p data)
        (w.makeLinear collector precision data).result) ∧
    (∀ data : QuadraticProgram.Data, data.N = none → (∀ d ∈ data.arrays, d.Converts p) →
      (w.makeQuadratic collector precision data).result = .error .undefinedSpectrum ∧
          QuadraticProgram.NoEigenvalue p data ∨
        DecidedByRanks (QuadraticProgram.region p data)
            (w.makeQuadratic collector precision data).result ∧
          ¬ QuadraticProgram.NoEigenvalue p data) ∧
    (Spectrum.ConvergentRank → ∀ R : Region p, NaNFree R.A.entries → NaNFree R.b.entries →
      R.HasRanks) ∧
    (Spectrum.LawfulRank → ∀ R : Region p, R.HasRanks →
      NaNFree R.A.entries ∧ NaNFree R.b.entries) ∧
    (Spectrum.ConvergentEigenvalue → ∀ (data : QuadraticProgram.Data) (S : Tensor p.Entry),
      QuadraticProgram.term p data = .ok S → S.shape = [1, 1] ∨ Spectrum.FiniteEntries S →
        ¬ QuadraticProgram.NoEigenvalue p data) := by
  refine ⟨fun data hN h => ?_, fun data hN h => ?_,
    fun _ _ hA hb => Region.hasRanks_of_nanFree hA hb, fun _ _ h => Region.nanFree_of_hasRanks h,
    fun _ data S hS hfinite => QuadraticProgram.not_noEigenvalue hS hfinite⟩
  · rw [result_makeLinear w collector hp, LinearProgram.build_of_requireCount (hN ▸ rfl)]
    exact (LinearProgram.decided_settle hN h).map _
  · rw [result_makeQuadratic w collector hp, QuadraticProgram.build_of_requireCount (hN ▸ rfl)]
    refine (QuadraticProgram.decided_settle hN h).imp (fun ⟨hnone, h⟩ => ⟨?_, h⟩)
      fun ⟨hdecided, h⟩ => ⟨hdecided.map _, h⟩
    rw [hnone]
    rfl

/-- One variable and one equality with a given coefficient. -/
def singleEquality (coefficient : Datum) : LinearProgram.Data where
  c := .list [.integer 1]
  N := none
  region :=
    { A := .list [.list [coefficient]]
      b := .list [.integer 1]
      G := none
      g := none
      d := none
      u := none }

def singleTerm (entry : Datum) : QuadraticProgram.Data where
  V := .list [.list [entry]]
  N := none
  q := none
  A := none
  b := none
  G := none
  g := none
  d := none
  u := none

/-- A construction with an infinite coefficient is decided, and so is one with a negative quadratic
term. -/
theorem makes_decided_infinite :
    Decided (initial.makeLinear .own none
      (singleEquality (.scalar (.real (.infinity false))))).result ∧
    Decided (initial.makeQuadratic .own none (singleTerm (.integer (-1)))).result := by
  have hprecision : precisionOf none = .ok .standard := rfl
  obtain ⟨hlinear, hquadratic, -, -, heigenvalue⟩ :=
    makes_decided_by_ranks initial .own hprecision
  constructor
  · have hranks := hlinear (singleEquality (.scalar (.real (.infinity false)))) rfl
      (by decide +kernel)
    exact hranks.decided (by decide +kernel)
  · -- The quadratic term has a single entry, so that it has a least eigenvalue.
    have hterm : (QuadraticProgram.term .standard (singleTerm (.integer (-1)))).toOption.map
        Tensor.shape = some [1, 1] := by decide +kernel
    obtain ⟨S, hS, hshape⟩ := Option.map_eq_some_iff.mp hterm
    have hexists := heigenvalue inferInstance (singleTerm (.integer (-1))) S
      (toOption_eq_some.mp hS) (.inl hshape)
    obtain ⟨-, hnone⟩ | ⟨hranks, -⟩ :=
      hquadratic (singleTerm (.integer (-1))) rfl (by decide +kernel)
    · exact absurd hnone hexists
    · exact hranks.decided (by decide +kernel)

/-- A construction with a coefficient that is a NaN is not decided. -/
theorem makes_not_decided_nan :
    (∀ d ∈ (singleEquality (.scalar (.real .nan))).arrays, d.Converts .standard) ∧
    (initial.makeLinear .own none (singleEquality (.scalar (.real .nan)))).result =
      .error .undefinedSpectrum := by
  have hconverts : ∀ d ∈ (singleEquality (.scalar (.real .nan))).arrays, d.Converts .standard := by
    decide +kernel
  have hsettle := (LinearProgram.decided_settle rfl hconverts).undefined (by decide +kernel)
  refine ⟨hconverts, ?_⟩
  rw [result_makeLinear (p := .standard) initial .own rfl,
    LinearProgram.build_of_requireCount rfl, hsettle]
  rfl

end Workspace

end StandardForm
