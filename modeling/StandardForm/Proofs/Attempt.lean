/-!
# Chains of attempts

A construction is a chain of steps, each of which may fail. It succeeds exactly when every step
does, and then each step has a value that the rest goes on from; where a step fails, so does the
chain, with the fault of that step.
-/

namespace StandardForm

section Attempt

variable {ε α β γ : Type}

theorem bind_eq_ok {x : Except ε α} {g : α → Except ε β} {b : β} :
    (x >>= g) = .ok b ↔ ∃ a, x = .ok a ∧ g a = .ok b := by
  cases x <;> simp [bind, Except.bind]

theorem bind_eq_error {x : Except ε α} {g : α → Except ε β} {e : ε} :
    (x >>= g) = .error e ↔ x = .error e ∨ ∃ a, x = .ok a ∧ g a = .error e := by
  cases x <;> simp [bind, Except.bind]

theorem ok_bind (a : α) (g : α → Except ε β) : (Except.ok a >>= g) = g a := rfl

theorem map_eq_ok {x : Except ε α} {g : α → β} {b : β} :
    x.map g = .ok b ↔ ∃ a, x = .ok a ∧ g a = b := by
  cases x <;> simp [Except.map]

theorem map_bind (x : Except ε α) (g : α → Except ε β) (k : β → γ) :
    (x >>= g).map k = x >>= fun a => (g a).map k := by
  cases x <;> rfl

/-- A check that is made last decides whether the value stays. -/
theorem bind_check_eq_ok {x : Except ε α} {check : Except ε Unit} {a : α} :
    (x >>= fun a => check >>= fun _ => pure a) = .ok a ↔ x = .ok a ∧ check = .ok () := by
  cases x <;> cases check <;> simp [bind, Except.bind, pure, Except.pure]

theorem bind_check_of_ok {x : Except ε α} {check : Except ε Unit} (h : check = .ok ()) :
    (x >>= fun a => check >>= fun _ => pure a) = x := by
  subst h
  cases x <;> rfl

theorem pure_eq_ok {a b : α} : (pure a : Except ε α) = .ok b ↔ a = b := by
  simp [pure, Except.pure]

theorem toOption_eq_some {x : Except ε α} {a : α} : x.toOption = some a ↔ x = .ok a := by
  cases x <;> simp [Except.toOption]

/-- What every step keeps, a run keeps. -/
theorem foldlM_invariant {step : α → β → Except ε α} (Holds : α → Prop) {steps : List β}
    (keeps : ∀ a a', ∀ s ∈ steps, Holds a → step a s = .ok a' → Holds a') {a a' : α} (ha : Holds a)
    (h : steps.foldlM step a = .ok a') : Holds a' := by
  induction steps generalizing a with
  | nil =>
    rw [List.foldlM_nil, pure_eq_ok] at h
    exact h ▸ ha
  | cons s steps ih =>
    rw [List.foldlM_cons, bind_eq_ok] at h
    obtain ⟨next, hs, hrest⟩ := h
    have hnext := keeps a next s List.mem_cons_self ha hs
    exact ih (fun _ _ s' hs' => keeps _ _ s' (List.mem_cons_of_mem s hs')) hnext hrest

end Attempt

end StandardForm
