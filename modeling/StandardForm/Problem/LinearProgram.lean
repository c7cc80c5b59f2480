import StandardForm.Problem.Region

/-!
# Linear programs

A linear program minimises `c x` over a region. Building one goes through three steps: its
data are brought to shape (`assemble`), its region is checked, and its bounds are put in
order. The number of variables is the number of costs unless it is given.
-/

namespace StandardForm

/-- Minimise `c x` over a region. -/
@[ext]
structure LinearProgram (p : Precision) extends Region p where
  c : Tensor p.Entry
  c_shape : c.shape = [N]

namespace LinearProgram

structure Data where
  c : Datum
  N : Option Datum
  region : Region.Data

/-- The costs `q`, called `name` in messages, and the arrays of a region, each converted and
brought to the shape that `n` variables demand. What is left out is filled first. Of the arrays
the matrices come first and the right-hand sides last. -/
def assemble (p : Precision) (n : Datum) (name : String) (costs A b : Source)
    (G g d u : Option Datum) : Except Fault { P : LinearProgram p // P.N = n.dimension } := do
  let u ← Source.vector u n (.infinity false)
  let d ← Source.vector d n 0
  let G ← Source.matrix G 0 n 0
  let g ← Source.vector g (.integer 0) 0
  let M ← b.size
  let J ← g.size
  let A ← A.toMatrix p.format "A" (.integer M) n
  let G ← G.toMatrix p.format "G" (.integer J) n
  let c ← costs.toVector p.format name n
  let d ← d.toVector p.format "d" n
  let u ← u.toVector p.format "u" n
  let b ← b.toVector p.format "b" (.integer M)
  let g ← g.toVector p.format "g" (.integer J)
  return ⟨{
    N := n.dimension, M, J
    A := A.1, b := b.1, G := G.1, g := g.1, d := d.1, u := u.1, c := c.1
    A_shape := A.2, b_shape := b.2, G_shape := G.2, g_shape := g.2
    d_shape := d.2, u_shape := u.2, c_shape := c.2 }, rfl⟩

def repair {p : Precision} (P : LinearProgram p) : Repaired (LinearProgram p) where
  value := { P.orderBounds with c := P.c, c_shape := P.c_shape }
  reversed := P.reversed

variable [Spectrum.Routines]

/-- Build a linear program in a given precision, except that the number of variables may still
be given with axes. -/
def settle (p : Precision) (data : Data) : Except Fault (Repaired (LinearProgram p)) := do
  let n ← data.N.getDM (data.c.vectorLength.map fun k => .integer k)
  let R := data.region
  let P ← assemble p n "c" (.given data.c) (.given R.A) (.given R.b) R.G R.g R.d R.u
  P.1.check
  return P.1.repair

def build (p : Precision) (data : Data) : Except Fault (Repaired (LinearProgram p)) := do
  let built ← settle p data
  Region.requireCount data.N
  return built

end LinearProgram

end StandardForm
