import StandardForm.Fault

/-!
# Chains of requirements

A construction is a chain of checks, each of which requires something that can be said without
reference to the chain, and fails in a way of its own. So it succeeds exactly if all requirements
are met, and otherwise fails as the first one does that is not.
-/

namespace StandardForm

/-- Something that is required, and the fault that arises where it is not met. -/
structure Requirement where
  met : Prop
  fault : Fault

/-- An attempt is decided by the first of some requirements that is not met. If all are met, it
leads to something with a property. -/
def DecidedBy {α : Type} (x : Except Fault α) (Holds : α → Prop) : List Requirement → Prop
  | [] => ∃ a, x = .ok a ∧ Holds a
  | r :: rs => (r.met → DecidedBy x Holds rs) ∧ (¬ r.met → x = .error r.fault)

namespace DecidedBy

variable {α β : Type} {x : Except Fault α} {Holds : α → Prop} {Holds' : β → Prop} {r : Requirement}
  {rs rs' : List Requirement}

theorem ok {a : α} (h : Holds a) : DecidedBy (.ok a) Holds [] := ⟨a, rfl, h⟩

theorem exists_ok (h : DecidedBy x Holds rs) (hmet : ∀ r ∈ rs, r.met) :
    ∃ a, x = .ok a ∧ Holds a := by
  induction rs with
  | nil => exact h
  | cons r rs ih =>
    rw [List.forall_mem_cons] at hmet
    exact ih (h.1 hmet.1) hmet.2

theorem met_of_ok {a : α} (h : DecidedBy x Holds rs) (hx : x = .ok a) : ∀ r ∈ rs, r.met := by
  induction rs with
  | nil => exact fun r hr => nomatch hr
  | cons r rs ih =>
    have hr : r.met := Classical.byContradiction fun hr => nomatch hx.symm.trans (h.2 hr)
    exact List.forall_mem_cons.mpr ⟨hr, ih (h.1 hr)⟩

/-- An attempt succeeds exactly if all requirements are met. -/
theorem ok_iff (h : DecidedBy x Holds rs) : (∃ a, x = .ok a) ↔ ∀ r ∈ rs, r.met := by
  constructor
  · rintro ⟨a, ha⟩
    exact h.met_of_ok ha
  · intro hmet
    obtain ⟨a, ha, -⟩ := h.exists_ok hmet
    exact ⟨a, ha⟩

/-- Otherwise it fails with the fault of the first requirement that is not met. -/
theorem eq_error {before after : List Requirement} (h : DecidedBy x Holds (before ++ r :: after))
    (hbefore : ∀ s ∈ before, s.met) (hr : ¬ r.met) : x = .error r.fault := by
  induction before with
  | nil => exact h.2 hr
  | cons s before ih =>
    rw [List.forall_mem_cons] at hbefore
    exact ih (h.1 hbefore.1) hbefore.2

/-- In a chain the requirements of a step come before those of the rest. -/
theorem append {g : α → Except Fault β} (hx : DecidedBy x Holds rs)
    (hg : ∀ a, Holds a → DecidedBy (g a) Holds' rs') :
    DecidedBy (x >>= g) Holds' (rs ++ rs') := by
  induction rs with
  | nil =>
    obtain ⟨a, rfl, ha⟩ := hx
    exact hg a ha
  | cons r rs ih => exact ⟨fun hr => ih (hx.1 hr), fun hr => by rw [hx.2 hr]; rfl⟩

/-- A step with a single requirement. -/
theorem bind {g : α → Except Fault β} (hx : DecidedBy x Holds [r])
    (hg : ∀ a, Holds a → DecidedBy (g a) Holds' rs) : DecidedBy (x >>= g) Holds' (r :: rs) :=
  hx.append hg

/-- A step that succeeds leaves nothing but what the rest requires. -/
theorem bind_ok {g : α → Except Fault β} {a : α} (hx : x = .ok a)
    (hg : DecidedBy (g a) Holds' rs) : DecidedBy (x >>= g) Holds' rs := by
  rw [hx]
  exact hg

theorem weaken {Holds' : α → Prop} (h : DecidedBy x Holds rs) (himp : ∀ a, Holds a → Holds' a) :
    DecidedBy x Holds' rs := by
  induction rs with
  | nil =>
    obtain ⟨a, ha, hholds⟩ := h
    exact ⟨a, ha, himp a hholds⟩
  | cons r rs ih => exact ⟨fun hr => ih (h.1 hr), h.2⟩

end DecidedBy

end StandardForm
