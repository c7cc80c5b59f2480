import StandardForm.Tensor.Basic

/-!
# Arrays of different shapes combined

Two arrays are combined entry by entry even where their shapes differ. Their axes are matched
from the last one on, each pair of axes has to have one length or one of them length one, and
an axis of length one is repeated along the other. What has fewer axes counts as having axes of
length one in front.
-/

namespace StandardForm

/-- The common length of two axes. -/
def commonLength? (m n : Nat) : Option Nat :=
  if m = n then some m else if m = 1 then some n else if n = 1 then some m else none

/-- Axis by axis, the common length. -/
def commonShape? : List Nat → List Nat → Option (List Nat)
  | m :: s, n :: t =>
    match commonLength? m n, commonShape? s t with
    | some k, some r => some (k :: r)
    | _, _ => none
  | _, _ => some []

/-- A shape with axes of length one in front, so that it has `depth` axes at least. -/
def deepened (depth : Nat) (shape : List Nat) : List Nat :=
  List.replicate (depth - shape.length) 1 ++ shape

theorem volume_replicate_append (k : Nat) (shape : List Nat) :
    volume (List.replicate k 1 ++ shape) = volume shape := by
  induction k with
  | zero => rfl
  | succ k ih => simp [List.replicate_succ, ih]

namespace Tensor

variable {α β γ : Type}

/-- An array with axes of length one in front, so that it has `depth` axes at least. -/
def deepen (depth : Nat) (t : Tensor α) : Tensor α :=
  ⟨deepened depth t.shape, t.entries, by
    rw [t.length_entries, deepened, volume_replicate_append]⟩

/-- Matching entries of two arrays combined, if their shapes have a common one. -/
def combine? [Zero α] [Zero β] (g : α → β → γ) (s : Tensor α) (t : Tensor β) :
    Option (Tensor γ) :=
  let depth := Nat.max s.shape.length t.shape.length
  let s := s.deepen depth
  let t := t.deepen depth
  (commonShape? s.shape t.shape).map fun shape =>
    ofFn shape fun i => g (s.entryAt i) (t.entryAt i)

end Tensor

end StandardForm
