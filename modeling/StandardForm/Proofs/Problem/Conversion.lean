import StandardForm.Proofs.Problem.Assembly
import StandardForm.Proofs.Problem.Bounds

/-!
# Bounds before and after they are put in order

The bounds of a problem are converted on their own: what they are given as matters to nothing else
in a construction. So a program can be assembled with other bounds by exchanging the converted ones
for others, and whatever fails elsewhere fails with either.
-/

namespace StandardForm

variable {p : Precision}

/-- The vectors that the bounds among some data are converted to, in `n` variables. -/
structure ConvertedBounds (p : Precision) (n : Datum) (d u : Option Datum)
    (lower upper : Shaped p.Entry [n.dimension]) : Prop where
  lower : (Source.vector d n 0 >>= fun s => s.toVector p.format "d" n) = .ok lower
  upper : (Source.vector u n (.infinity false) >>= fun s => s.toVector p.format "u" n) = .ok upper

/-- A vector whose length is written in another way. -/
def Shaped.recount {α : Type} {m n : Nat} (h : m = n) (v : Shaped α [n]) : Shaped α [m] :=
  ⟨v.1, h ▸ v.2⟩

theorem Region.shape_of_count (R : Region p) (v : Shaped p.Entry [R.N]) : v.1.shape = [R.N] := v.2

def Region.withBounds (R : Region p) (lower upper : Shaped p.Entry [R.N]) : Region p :=
  { R with
    d := lower.1
    u := upper.1
    d_shape := R.shape_of_count lower
    u_shape := R.shape_of_count upper }

namespace LinearProgram

def withBounds (P : LinearProgram p) (lower upper : Shaped p.Entry [P.N]) : LinearProgram p :=
  { P.toRegion.withBounds lower upper with c := P.c, c_shape := P.c_shape }

variable {n : Datum} {name : String} {costs A b : Source} {G g d u d' u' : Option Datum}
  {lower upper lower' upper' : Shaped p.Entry [n.dimension]}

/-- The bounds of an assembled program are the converted ones. -/
theorem AssembledFrom.exists_convertedBounds {P : LinearProgram p}
    (h : P.AssembledFrom n name costs A b G g d u) :
    ∃ lower upper, ConvertedBounds p n d u lower upper ∧ P.d = lower.1 ∧ P.u = upper.1 := by
  obtain ⟨lower, hlower, hd⟩ := map_eq_ok.mp h.d_eq
  obtain ⟨upper, hupper, hu⟩ := map_eq_ok.mp h.u_eq
  exact ⟨lower, upper, ⟨hlower, hupper⟩, hd.symm, hu.symm⟩

theorem bounds_of_assemble {P : { P : LinearProgram p // P.N = n.dimension }}
    (h : assemble p n name costs A b G g d u = .ok P)
    (hbounds : ConvertedBounds p n d u lower upper) :
    P.1.d = lower.1 ∧ P.1.u = upper.1 := by
  have hP := assembledFrom_of_assemble h
  have hd := hP.d_eq
  have hu := hP.u_eq
  rw [hbounds.lower] at hd
  rw [hbounds.upper] at hu
  exact ⟨(Except.ok.inj hd).symm, (Except.ok.inj hu).symm⟩

/-- Other bounds lead to the program with the other bounds, or to the same fault. -/
theorem assemble_withBounds (h : ConvertedBounds p n d u lower upper)
    (h' : ConvertedBounds p n d' u' lower' upper') :
    assemble p n name costs A b G g d' u' =
      (assemble p n name costs A b G g d u).map fun P =>
        ⟨P.1.withBounds (.recount P.2 lower') (.recount P.2 upper'), P.2⟩ := by
  obtain ⟨d₁, hd₁, hlower⟩ := bind_eq_ok.mp h.lower
  obtain ⟨u₁, hu₁, hupper⟩ := bind_eq_ok.mp h.upper
  obtain ⟨d₂, hd₂, hlower'⟩ := bind_eq_ok.mp h'.lower
  obtain ⟨u₂, hu₂, hupper'⟩ := bind_eq_ok.mp h'.upper
  simp only [assemble, hd₁, hu₁, hd₂, hu₂, hlower, hupper, hlower', hupper', ok_bind, map_bind]
  rfl

variable [Spectrum.Routines]

/-- The program has the converted bounds, in order, over a region that has been checked. -/
theorem exists_checked_of_settle {data : Data} {built : Repaired (LinearProgram p)}
    (hsettle : settle p data = .ok built) :
    ∃ n lower upper, data.count = .ok n ∧
      ConvertedBounds p n data.region.d data.region.u lower upper ∧
      ∃ R : Region p, R.d = lower.1 ∧ R.u = upper.1 ∧ R.check = .ok () ∧
        built.value.toRegion = R.orderBounds ∧ built.reversed = R.reversed := by
  obtain ⟨n, P, hn, hP, hcheck, rfl⟩ := exists_assembled_of_settle hsettle
  obtain ⟨lower, upper, hbounds, hd, hu⟩ := hP.exists_convertedBounds
  exact ⟨n, lower, upper, hn, hbounds, P.toRegion, hd, hu, hcheck, rfl, rfl⟩

end LinearProgram

namespace QuadraticProgram

variable [Spectrum.Routines]

/-- The program has the converted bounds, in order, over a region that has been checked. -/
theorem exists_checked_of_settle {data : Data} {built : Repaired (QuadraticProgram p)}
    (hsettle : settle p data = .ok built) :
    ∃ n lower upper, data.count p = .ok n ∧ ConvertedBounds p n data.d data.u lower upper ∧
      ∃ R : Region p, R.d = lower.1 ∧ R.u = upper.1 ∧ R.check = .ok () ∧
        built.value.toRegion = R.orderBounds ∧ built.reversed = R.reversed := by
  obtain ⟨V, hV, hsettle⟩ := bind_eq_ok.mp hsettle
  obtain ⟨S, -, hover⟩ := bind_eq_ok.mp hsettle
  obtain ⟨q, A, b, P, hP, hcheck, hregion, -, hreversed⟩ := exists_assembled_of_settleOver hover
  obtain ⟨lower, upper, hbounds, hd, hu⟩ := hP.exists_convertedBounds
  have hn : data.count p = .ok (data.N.getD (.integer (suggestedDimension V))) := by
    rw [Data.count, hV]
    rfl
  exact ⟨_, lower, upper, hn, hbounds, P.toRegion, hd, hu, hcheck, hregion, hreversed⟩

end QuadraticProgram

end StandardForm
