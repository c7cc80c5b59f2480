import StandardForm.Problem.QuadraticProgram
import StandardForm.Tensor.Spread

/-!
# Variations of a quadratic program

A parametric method solves many programs that differ little. A program that has been built can
be given another linear term, or have its linear term turned into one more equality. What the
variation cannot affect is taken over as it is: the quadratic term, the inequalities and the
bounds. The equalities are checked again only on demand, that is, if a datum counts as true.

What a variation is given is trusted otherwise. The factor of a linear term may have axes of its
own, along which the term is repeated, and the right-hand side of an equality may be several
numbers, or none. So what variations lead to is a variant of a program, in which the linear
term and the right-hand sides need not fit the dimensions; where they do, it is a program again.
-/

namespace StandardForm

/-- A change to a quadratic program. -/
inductive Variation
  /-- The linear term `-L * q` in place of the present one. -/
  | linearTerm (q L : Datum)
  /-- The further equality `q z = mu`, without a linear term. -/
  | equality (mu q validate : Datum)

/-- A quadratic program, except that any array may stand for its linear term `q` and for the
right-hand sides `b` of its equalities. -/
@[ext]
structure Variant (p : Precision) where
  N : Nat
  M : Nat
  J : Nat
  V : Tensor p.Entry
  A : Tensor p.Entry
  b : Tensor p.Entry
  G : Tensor p.Entry
  g : Tensor p.Entry
  d : Tensor p.Entry
  u : Tensor p.Entry
  q : Tensor p.Entry
  V_shape : V.shape = [N, N]
  A_shape : A.shape = [M, N]
  G_shape : G.shape = [J, N]
  g_shape : g.shape = [J]
  d_shape : d.shape = [N]
  u_shape : u.shape = [N]

def Tensor.times {f : FloatFormat} (s t : Tensor (Binary f)) :
    Except Fault (Tensor (Binary f)) :=
  match s.combine? (· * ·) t with
  | some r => .ok r
  | none => .error .malformed

namespace Variant

variable [Spectrum.Routines] {p : Precision}

/-- The program that a variant is, if everything fits. -/
def program? (W : Variant p) : Option (QuadraticProgram p) :=
  if h : W.b.shape = [W.M] ∧ W.q.shape = [W.N] then
    some { W with b_shape := h.1, q_shape := h.2 }
  else none

/-- The variant with the linear term `-L * q`. Only the length of `q` is checked. -/
def withLinearTerm (W : Variant p) (q L : Datum) : Except Fault (Variant p) := do
  let q ← q.toVector p.format "q" (.integer W.N)
  let L ← L.toTensor p.format
  let term ← (L.map Neg.neg).times q.1
  Datum.requireSize p.format term.shape
  return { W with q := term }

/-- The variant with the further equality `q z = mu`, which becomes the last one, and without
a linear term. -/
def withEquality (W : Variant p) (mu q validate : Datum) : Except Fault (Variant p) := do
  let q ← q.toVector p.format "q" (.integer W.N)
  let A := W.A.appendRow q.1 W.A_shape q.2
  Datum.requireSize p.format A.shape
  let mu ← mu.toTensor p.format
  let b := W.b.append mu
  Datum.requireSize p.format b.shape
  if ← validate.countsAsTrue then Equalities.check A b
  return {
    W with
    M := W.M + 1, A, b, q := (QuadraticProgram.zeroTerm p W.N).1
    A_shape := rfl }

def vary (W : Variant p) : Variation → Except Fault (Variant p)
  | .linearTerm q L => W.withLinearTerm q L
  | .equality mu q validate => W.withEquality mu q validate

end Variant

namespace QuadraticProgram

variable [Spectrum.Routines] {p : Precision}

def toVariant (P : QuadraticProgram p) : Variant p := { P with }

def vary (P : QuadraticProgram p) (v : Variation) : Except Fault (Variant p) :=
  P.toVariant.vary v

/-- Vary a program again and again, each variation starting from the result of the last. -/
def varyAll (P : QuadraticProgram p) (variations : List Variation) : Except Fault (Variant p) :=
  variations.foldlM Variant.vary P.toVariant

end QuadraticProgram

end StandardForm
