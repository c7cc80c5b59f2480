import StandardForm.Logging.Basic

/-!
# Calls that change the logging

The logging is changed by looking the root up, by setting a level and by configuring. What a
call leaves behind is read off one lemma for each of them, which says what it does with whatever
it is given. A template is looked at after the old handler is gone and before the new one is
there, so a refused template leaves none; a level is looked at when the new handler stands, so a
refused level leaves the new handler in place of the old one.
-/

namespace StandardForm.Logging

/-- A call that may change the logging, with all that it is given. -/
inductive Call
  | lookUp
  | setLevel (level : Datum)
  | configure (level template : Datum) (stream : Stream)

/-- Whether the call went through, and the logging afterwards. -/
def Call.apply (l : Logging) : Call → Except Fault Unit × Logging
  | .lookUp => (.ok (), l.lookUp)
  | .setLevel level => l.setLevel level
  | .configure level template stream => l.configureOn level template stream

/-- The logging after some calls, each made whether or not the ones before it went through. -/
def after (l : Logging) (calls : List Call) : Logging :=
  calls.foldl (fun l call => (call.apply l).2) l

def Call.RefusesTemplate : Call → Prop
  | .configure _ template _ => ∃ e, templateOf template = .error e
  | _ => False

/-- The call, if it fails, finds what a failure leaves: a handler where a level is set; where a
template is refused, no handler and the level of a root without one; where only the level is
refused, the very handler that is installed, without a level of its own. -/
def Call.Spares (l : Logging) : Call → Prop
  | .lookUp => True
  | .setLevel _ => l.handler ≠ none
  | .configure _ template stream =>
    match templateOf template with
    | .error _ => l.level = .warning ∧ l.handler = none
    | .ok t => l.handler = some ⟨.unset, t, stream⟩

section Steps

variable {l : Logging} {level template : Datum} {stream : Stream}

theorem lookUp_of_some {h : Handler} (hl : l.handler = some h) : l.lookUp = l := by
  simp only [lookUp, hl]

theorem lookUp_of_none (hl : l.handler = none) :
    l.lookUp = ⟨.warning, some .standard, l.origin⟩ := by
  simp only [lookUp, hl]

@[simp] theorem origin_lookUp (l : Logging) : l.lookUp.origin = l.origin := by
  cases hl : l.handler with
  | some h => rw [lookUp_of_some hl]
  | none => rw [lookUp_of_none hl]

theorem exists_handler_lookUp (l : Logging) : ∃ h, l.lookUp.handler = some h := by
  cases hl : l.handler with
  | some h => exact ⟨h, by rw [lookUp_of_some hl, hl]⟩
  | none => exact ⟨.standard, by rw [lookUp_of_none hl]⟩

theorem lookUp_eq_self_iff : l.lookUp = l ↔ l.handler ≠ none := by
  constructor
  · intro h
    obtain ⟨x, hx⟩ := exists_handler_lookUp l
    rw [← h, hx]
    exact Option.some_ne_none x
  · intro h
    obtain ⟨x, hx⟩ := Option.ne_none_iff_exists'.mp h
    exact lookUp_of_some hx

/-- All that setting a level can do. -/
theorem setLevel_cases (l : Logging) (level : Datum) :
    (∃ e, levelOf level = .error e ∧ l.setLevel level = (.error e, l.lookUp)) ∨
    ∃ n h, levelOf level = .ok n ∧ l.lookUp.handler = some h ∧
      l.setLevel level = (.ok (), ⟨n, some { h with level := n }, l.origin⟩) := by
  obtain ⟨h, hh⟩ := exists_handler_lookUp l
  cases hn : levelOf level with
  | error e => exact .inl ⟨e, rfl, by simp only [setLevel, hn]⟩
  | ok n =>
    exact .inr ⟨n, h, rfl, hh, by simp only [setLevel, hn, hh, Option.map_some, origin_lookUp]⟩

/-- All that configuring can do. -/
theorem configureOn_cases (l : Logging) (level template : Datum) (stream : Stream) :
    (∃ e, templateOf template = .error e ∧
      l.configureOn level template stream = (.error e, ⟨l.lookUp.level, none, l.origin⟩)) ∨
    (∃ t e, templateOf template = .ok t ∧ levelOf level = .error e ∧
      l.configureOn level template stream =
        (.error e, ⟨l.lookUp.level, some ⟨.unset, t, stream⟩, l.origin⟩)) ∨
    ∃ t n, templateOf template = .ok t ∧ levelOf level = .ok n ∧
      l.configureOn level template stream = (.ok (), ⟨n, some ⟨n, t, stream⟩, l.origin⟩) := by
  cases ht : templateOf template with
  | error e => exact .inl ⟨e, rfl, by simp only [configureOn, ht, origin_lookUp]⟩
  | ok t =>
    right
    obtain ⟨e, he, hset⟩ | ⟨n, h, hn, hh, hset⟩ :=
      setLevel_cases ⟨l.lookUp.level, some ⟨.unset, t, stream⟩, l.origin⟩ level
    · exact .inl ⟨t, e, rfl, he, by simp only [configureOn, ht, origin_lookUp, hset]; rfl⟩
    · cases hh
      exact .inr ⟨t, n, rfl, hn, by simp only [configureOn, ht, origin_lookUp, hset]⟩

end Steps

/-- A step: whatever the logging was, a call leaves no handler exactly when it refuses a
template. -/
theorem handler_apply_eq_none_iff (l : Logging) (call : Call) :
    (call.apply l).2.handler = none ↔ call.RefusesTemplate := by
  cases call with
  | lookUp =>
    obtain ⟨h, hh⟩ := exists_handler_lookUp l
    simp [Call.apply, Call.RefusesTemplate, hh]
  | setLevel level =>
    obtain ⟨h, hh⟩ := exists_handler_lookUp l
    obtain ⟨e, -, hset⟩ | ⟨n, h', -, -, hset⟩ := setLevel_cases l level
    · simp [Call.apply, Call.RefusesTemplate, hset, hh]
    · simp [Call.apply, Call.RefusesTemplate, hset]
  | configure level template stream =>
    obtain ⟨e, ht, hset⟩ | ⟨t, e, ht, -, hset⟩ | ⟨t, n, ht, -, hset⟩ :=
      configureOn_cases l level template stream
    all_goals simp [Call.apply, Call.RefusesTemplate, hset, ht]

/-- A run: only the last call matters for whether there is a handler. -/
theorem handler_after_eq_none_iff (calls : List Call) :
    (initial.after calls).handler = none ↔
      ∃ last, calls.getLast? = some last ∧ last.RefusesTemplate := by
  obtain rfl | ⟨before, last, rfl⟩ := List.eq_nil_or_concat calls
  · simp [after, initial]
  · have hlast : initial.after (before.concat last) = (last.apply (initial.after before)).2 := by
      simp [after]
    rw [hlast, handler_apply_eq_none_iff]
    simp

/-- A step: what a call that fails leaves is what there was exactly when the call spares it. -/
theorem apply_eq_self_iff_spares {l : Logging} {call : Call} {e : Fault}
    (h : (call.apply l).1 = .error e) : (call.apply l).2 = l ↔ call.Spares l := by
  cases call with
  | lookUp => cases h
  | setLevel level =>
    obtain ⟨e, -, hset⟩ | ⟨n, h', -, -, hset⟩ := setLevel_cases l level
    · rw [Call.apply, hset]
      exact lookUp_eq_self_iff
    · rw [Call.apply, hset] at h
      cases h
  | configure level template stream =>
    obtain ⟨root, handler, origin⟩ := l
    obtain ⟨e, ht, hset⟩ | ⟨t, e, ht, -, hset⟩ | ⟨t, n, -, -, hset⟩ :=
      configureOn_cases ⟨root, handler, origin⟩ level template stream
    -- In both failures the level is the one that the look-up found or set.
    · cases handler <;> simp [Call.apply, Call.Spares, hset, ht, lookUp, eq_comm]
    · cases handler <;> simp [Call.apply, Call.Spares, hset, ht, lookUp, eq_comm]
    · rw [Call.apply, hset] at h
      cases h

/-- In every logging that calls can lead to, whether they went through or failed, there is one
handler unless the last call refused a template; and from there a call that fails leaves
everything as it was exactly when it finds what its failure leaves. -/
theorem reconfiguration_spares_iff (calls : List Call) (call : Call) :
    ((initial.after calls).handler = none ↔
      ∃ last, calls.getLast? = some last ∧ last.RefusesTemplate) ∧
    ∀ e, (call.apply (initial.after calls)).1 = .error e →
      ((call.apply (initial.after calls)).2 = initial.after calls ↔
        call.Spares (initial.after calls)) := by
  constructor
  · exact handler_after_eq_none_iff calls
  · intro e he
    exact apply_eq_self_iff_spares he

/-- Nothing at all is no level; a handler stands, so that nothing changes. -/
theorem reconfiguration_spares_refusedLevel :
    let l := initial.after [.configure (.scalar (.text "DEBUG")) (.scalar .absent) .errors]
    let call := Call.setLevel (.scalar .absent)
    (call.apply l).1 = .error .wrongKind ∧ l.handler ≠ none ∧ (call.apply l).2 = l := by
  intro l call
  obtain ⟨hnone, hspares⟩ := reconfiguration_spares_iff
    [.configure (.scalar (.text "DEBUG")) (.scalar .absent) .errors] call
  have hfails : (call.apply l).1 = .error .wrongKind := rfl
  have hhandler : l.handler ≠ none := by
    intro h
    obtain ⟨last, hlast, hrefuses⟩ := hnone.mp h
    cases hlast
    obtain ⟨e, he⟩ := hrefuses
    cases he
  exact ⟨hfails, hhandler, (hspares _ hfails).mpr hhandler⟩

/-- A text without a field is no template: the call fails and the handler is gone. -/
theorem reconfiguration_drops_handler :
    let l := initial.after [.configure (.scalar (.text "DEBUG")) (.scalar .absent) .errors]
    let call := Call.configure (.scalar (.integer 30)) (.scalar (.text "hello")) .errors
    (call.apply l).1 = .error .malformed ∧ l.handler ≠ none ∧ (call.apply l).2.handler = none := by
  intro l call
  exact ⟨rfl, by decide +kernel, rfl⟩

end StandardForm.Logging
