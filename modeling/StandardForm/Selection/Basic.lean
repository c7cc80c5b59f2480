/-!
# Selection of rows, one at a time

Rows are visited in order. Each is either passed over, which leaves no trace, or kept, which
changes the state that the later rows meet. The result lists the indices of the rows kept.
-/

namespace StandardForm.Selection

variable {σ ρ : Type}

/-- The indices of the rows kept, counted from `index`. -/
def keep (accept : σ → ρ → Option σ) : (index : Nat) → σ → List ρ → List Nat
  | _, _, [] => []
  | index, s, row :: rows =>
    match accept s row with
    | some s => index :: keep accept (index + 1) s rows
    | none => keep accept (index + 1) s rows

def finalState (accept : σ → ρ → Option σ) : σ → List ρ → σ
  | s, [] => s
  | s, row :: rows => finalState accept ((accept s row).getD s) rows

end StandardForm.Selection
