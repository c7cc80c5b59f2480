import StandardForm.Proofs.Logging.Reconfiguration
import StandardForm.Proofs.Problem.Reports

/-!
# Levels and the lines of constructions

A call that sets a level leaves it at the root and at the handler alike, so the level decides about
a record as one would expect, with one exception: the level zero counts as unset at the root, and
then the root passes what is at least a warning. Which lines a construction can write depends on
nothing else in the logging, and how they are laid out depends on the template alone.
-/

namespace StandardForm

namespace Logging

def Call.SetsLevel : Call → Prop
  | .lookUp => False
  | .setLevel _ | .configure _ _ _ => True

/-- The call with another level in place of its own, if it has one. -/
def Call.withLevel (level : Datum) : Call → Call
  | .lookUp => .lookUp
  | .setLevel _ => .setLevel level
  | .configure _ template stream => .configure level template stream

def atLevel (L : ℤ) (template : String) (stream : Stream)
    (origin : String → Level → String → Origin) : Logging :=
  ⟨.number L, some ⟨.number L, template, stream⟩, origin⟩

/-- A call that sets a level goes through unless it refuses a template, and leaves the level at
both places. Template and stream do not depend on the level. -/
theorem exists_apply_withLevel {call : Call} (hsets : call.SetsLevel)
    (htemplate : ¬ call.RefusesTemplate) (l : Logging) :
    ∃ template stream, ∀ L : ℤ, (call.withLevel (.scalar (.integer L))).apply l =
      (.ok (), atLevel L template stream l.origin) := by
  have hlevel (L : ℤ) : levelOf (.scalar (.integer L)) = .ok (.number L) := rfl
  cases call with
  | lookUp => exact hsets.elim
  | setLevel level =>
    obtain ⟨h, hh⟩ := exists_handler_lookUp l
    refine ⟨h.template, h.stream, fun L => ?_⟩
    simp only [Call.withLevel, Call.apply, setLevel, hlevel, hh, Option.map_some, atLevel,
      origin_lookUp]
  | configure level template stream =>
    cases ht : templateOf template with
    | error e => exact absurd ⟨e, ht⟩ htemplate
    | ok t =>
      refine ⟨t, stream, fun L => ?_⟩
      obtain ⟨e, he, -⟩ | ⟨t', e, -, he, -⟩ | ⟨t', n, ht', hn, hset⟩ :=
        configureOn_cases l (.scalar (.integer L)) template stream
      · cases ht.symm.trans he
      · cases (hlevel L).symm.trans he
      · cases ht.symm.trans ht'
        cases (hlevel L).symm.trans hn
        exact hset

theorem after_concat (l : Logging) (calls : List Call) (last : Call) :
    l.after (calls ++ [last]) = (last.apply (l.after calls)).2 := by
  simp [after]

theorem Call.InstallsFillable.withLevel {call : Call} (h : call.InstallsFillable) (level : Datum) :
    (call.withLevel level).InstallsFillable := by
  cases call with
  | lookUp | setLevel => trivial
  | configure _ template stream => exact h

section AtLevel

variable {L : ℤ} {template : String} {stream : Stream} {origin : String → Level → String → Origin}

/-- Records pass from their level on, but not below that of warnings where the level is unset. -/
theorem passes_atLevel {level : Level} (hpos : 0 < level.value) :
    (atLevel L template stream origin).Passes level ↔
      L ≤ level.value ∧ (L = 0 → 30 ≤ level.value) := by
  have hthreshold : (atLevel L template stream origin).threshold = L := rfl
  have heffective : (atLevel L template stream origin).effectiveLevel.value =
      if L = 0 then 30 else L := by
    by_cases hL : L = 0
    · subst hL
      rfl
    · simp only [effectiveLevel, atLevel, Level.value, hL, if_false]
  rw [Passes, hthreshold, heffective]
  split <;> omega

theorem passes_warning_atLevel : (atLevel L template stream origin).Passes .warning ↔ L ≤ 30 := by
  rw [passes_atLevel (by decide)]
  exact and_iff_left fun _ => le_refl 30

theorem passes_debug_atLevel :
    (atLevel L template stream origin).Passes .debug ↔ L ≠ 0 ∧ L ≤ 10 := by
  rw [passes_atLevel (by decide)]
  have hvalue : Level.debug.value = 10 := rfl
  rw [hvalue]
  omega

theorem layOut_atLevel (name : String) (level : Level) (message : String) :
    (atLevel L template stream origin).layOut name level message =
      fill (fields (origin name level message) name level message) template := rfl

end AtLevel

end Logging

namespace Workspace

/-- All the lines of a construction. -/
theorem lines_make [Spectrum.Routines] (w : Workspace) (call : Call) :
    (w.make call).lines =
      match call.settled, Region.requireCount call.given with
      | .error _, _ => []
      | .ok built, .error _ => w.repairLines built.reversed
      | .ok built, .ok () =>
        w.repairLines built.reversed ++ w.dimensionLines call.logger built.value := by
  rw [make_eq]
  cases call.settled with
  | error e => rfl
  | ok built =>
    cases Region.requireCount call.given with
    | error e => exact toList_repairLine w built.reversed
    | ok =>
      have hdimensions := Logging.toList_written w.logging call.logger .debug
        (AnyProgram.dimensions built.value)
      exact congrArg₂ (· ++ ·) (toList_repairLine w built.reversed) hdimensions

/-- The workspace after calls that change its logging, of which the last has a level in place of
its own. -/
def leveled (w : Workspace) (calls : List Logging.Call) (last : Logging.Call) (L : ℤ) : Workspace :=
  { w with logging := w.logging.after (calls ++ [last.withLevel (.scalar (.integer L))]) }

/-- What is written under a condition is written under a weaker one. -/
theorem sublist_of_imp {P P' : Prop} [Decidable P] [Decidable P'] (h : P → P')
    (lines : List String) : (if P then lines else []).Sublist (if P' then lines else []) := by
  split
  · next hP => rw [if_pos (h hP)]
  · exact List.nil_sublist _

variable {last : Logging.Call}

theorem exists_logging_leveled (hsets : last.SetsLevel) (htemplate : ¬ last.RefusesTemplate)
    (w : Workspace) (calls : List Logging.Call) :
    ∃ template stream origin, ∀ L : ℤ,
      ((last.withLevel (.scalar (.integer L))).apply (w.logging.after calls)).1 = .ok () ∧
        (w.leveled calls last L).logging = .atLevel L template stream origin := by
  obtain ⟨template, stream, h⟩ :=
    Logging.exists_apply_withLevel hsets htemplate (w.logging.after calls)
  refine ⟨template, stream, (w.logging.after calls).origin, fun L => ⟨by rw [h L], ?_⟩⟩
  rw [leveled, Logging.after_concat, h L]

section Leveled

variable {w : Workspace} {calls : List Logging.Call} {template : String} {stream : Logging.Stream}
  {origin : String → Logging.Level → String → Logging.Origin} {L L' : ℤ}

theorem repairLines_leveled
    (h : (w.leveled calls last L).logging = .atLevel L template stream origin)
    (reversed : List Nat) :
    (w.leveled calls last L).repairLines reversed =
      if reversed ≠ [] ∧ L ≤ 30 then
        ((w.leveled calls last L).logging.layOut linearLogger .warning
          (repairText reversed)).toList
      else [] := by
  simp only [repairLines, h, Logging.passes_warning_atLevel]

theorem dimensionLines_leveled
    (h : (w.leveled calls last L).logging = .atLevel L template stream origin)
    (logger : String) (P : AnyProgram) :
    (w.leveled calls last L).dimensionLines logger P =
      if L ≠ 0 ∧ L ≤ 10 then
        ((w.leveled calls last L).logging.layOut logger .debug P.dimensions).toList
      else [] := by
  simp only [dimensionLines, h, Logging.passes_debug_atLevel]

/-- Templates that make lines of all records are followed by such templates, at every level. -/
theorem makesLines_leveled (hw : w.logging.MakesLines)
    (hcalls : ∀ call ∈ calls ++ [last], call.InstallsFillable) (L : ℤ) :
    (w.leveled calls last L).logging.MakesLines := by
  rw [List.forall_mem_append, List.forall_mem_singleton] at hcalls
  refine hw.after (List.forall_mem_append.mpr ⟨hcalls.1, List.forall_mem_singleton.mpr ?_⟩)
  exact hcalls.2.withLevel _

/-- A level that is lower, but not zero, hides no line. -/
theorem lines_make_sublist [Spectrum.Routines] (hle : L' ≤ L) (hne : L' ≠ 0)
    (h : (w.leveled calls last L).logging = .atLevel L template stream origin)
    (h' : (w.leveled calls last L').logging = .atLevel L' template stream origin) (call : Call) :
    ((w.leveled calls last L).make call).lines.Sublist
      ((w.leveled calls last L').make call).lines := by
  have hrepair (reversed : List Nat) : ((w.leveled calls last L).repairLines reversed).Sublist
      ((w.leveled calls last L').repairLines reversed) := by
    rw [repairLines_leveled h, repairLines_leveled h', h, h', Logging.layOut_atLevel,
      Logging.layOut_atLevel]
    exact sublist_of_imp (fun hL => ⟨hL.1, hle.trans hL.2⟩) _
  have hdimensions (P : AnyProgram) : ((w.leveled calls last L).dimensionLines call.logger P).Sublist
      ((w.leveled calls last L').dimensionLines call.logger P) := by
    rw [dimensionLines_leveled h, dimensionLines_leveled h', h, h', Logging.layOut_atLevel,
      Logging.layOut_atLevel]
    exact sublist_of_imp (fun hL => ⟨hne, hle.trans hL.2⟩) _
  rw [lines_make, lines_make]
  split
  · exact List.Sublist.refl _
  · exact hrepair _
  · exact (hrepair _).append (hdimensions _)

end Leveled

/-- After any calls that change the logging, a last one sets an integer level, which it does unless
it refuses a template. A construction then reports bounds that it has exchanged if the level is at
most that of warnings, and the dimensions of its program if the level is at most that of messages
for debugging and is not zero. Each of the two is a line in the log if all templates make lines. So
no lower level hides a line, unless it is zero. -/
theorem makes_report_by_level [Spectrum.Routines] (hsets : last.SetsLevel)
    (htemplate : ¬ last.RefusesTemplate) (w : Workspace) (calls : List Logging.Call) (call : Call) :
    (∀ L : ℤ,
      let here := w.leveled calls last L
      ((last.withLevel (.scalar (.integer L))).apply (w.logging.after calls)).1 = .ok () ∧
      (w.logging.MakesLines → (∀ c ∈ calls ++ [last], c.InstallsFillable) →
        here.logging.MakesLines) ∧
      (∀ P, (here.make call).result = .ok P → ∃ reversed, call.reversed = .ok reversed ∧
        (here.make call).lines =
          (if reversed ≠ [] ∧ L ≤ 30 then
            (here.logging.layOut linearLogger .warning (repairText reversed)).toList else []) ++
          (if L ≠ 0 ∧ L ≤ 10 then
            (here.logging.layOut call.logger .debug P.dimensions).toList else []) ∧
        (here.logging.MakesLines → (here.make call).lines.length =
          (if reversed ≠ [] ∧ L ≤ 30 then 1 else 0) + if L ≠ 0 ∧ L ≤ 10 then 1 else 0)) ∧
      ∀ e, (here.make call).result = .error e → (here.make call).lines = [] ∨
        ∃ reversed, call.reversed = .ok reversed ∧ (here.make call).lines =
          if reversed ≠ [] ∧ L ≤ 30 then
            (here.logging.layOut linearLogger .warning (repairText reversed)).toList else []) ∧
    ∀ L L' : ℤ, L' ≤ L → L' ≠ 0 →
      ((w.leveled calls last L).make call).lines.Sublist
        ((w.leveled calls last L').make call).lines := by
  obtain ⟨template, stream, origin, h⟩ := exists_logging_leveled hsets htemplate w calls
  constructor
  · intro L here
    have hmake := allOrNothing_make here call
    have hwarning : here.logging.Passes .warning ↔ L ≤ 30 := by
      rw [(h L).2, Logging.passes_warning_atLevel]
    have hdebug : here.logging.Passes .debug ↔ L ≠ 0 ∧ L ≤ 10 := by
      rw [(h L).2, Logging.passes_debug_atLevel]
    refine ⟨(h L).1, fun hw hcalls => makesLines_leveled hw hcalls L, fun P hP => ?_, fun e he => ?_⟩
    · obtain ⟨reversed, hreversed, -, hlines⟩ := hmake.succeeded P hP
      refine ⟨reversed, hreversed, hlines.trans ?_, fun hmakes => ?_⟩
      · exact congrArg₂ (· ++ ·) (repairLines_leveled (h L).2 reversed)
          (dimensionLines_leveled (h L).2 call.logger P)
      · rw [hlines, List.length_append, length_repairLines hmakes, length_dimensionLines hmakes]
        simp only [hwarning, hdebug]
    · obtain ⟨-, hlines⟩ | ⟨-, -, reversed, hreversed, -, -, hlines⟩ := hmake.failed e he
      · exact .inl hlines
      · exact .inr ⟨reversed, hreversed, hlines.trans (repairLines_leveled (h L).2 reversed)⟩
  · intro L L' hle hne
    exact lines_make_sublist hle hne (h L).2 (h L').2 call

/-- A negative level lets both lines through, and the level ten hides neither of them. -/
theorem makes_report_by_level_negative :
    let call : Call := ⟨.own, none, .inl LinearProgram.reversedBounds⟩
    let last : Logging.Call := .configure (.scalar (.text "ERROR")) (.scalar .absent) .errors
    ((initial.leveled [.lookUp] last (-5)).make call).lines.length = 2 ∧
      ((initial.leveled [.lookUp] last 10).make call).lines.Sublist
        ((initial.leveled [.lookUp] last (-5)).make call).lines := by
  intro call last
  have htemplate : ¬ last.RefusesTemplate := by
    rintro ⟨e, he⟩
    cases he
  have hsets : last.SetsLevel := trivial
  have hreport := makes_report_by_level hsets htemplate initial [.lookUp] call
  exact ⟨by decide +kernel, hreport.2 10 (-5) (by decide) (by decide)⟩

/-- The level zero is lower than ten and hides the line about the dimensions, which ten shows. With
a template that is accepted but cannot be filled, ten shows neither line. -/
theorem makes_hide_line_at_zero :
    let call : Call := ⟨.own, none, .inl LinearProgram.reversedBounds⟩
    let last : Logging.Call := .setLevel (.scalar (.text "ERROR"))
    ((initial.leveled [] last 10).make call).lines.length = 2 ∧
      ((initial.leveled [] last 0).make call).lines.length = 1 ∧
      ((initial.leveled [] last 0).make call).result.toOption.isSome = true ∧
      let unknown : Logging.Call := .configure (.scalar (.text "ERROR"))
        (.scalar (.text "%(message)s in %(place)s")) .errors
      ((unknown.withLevel (.scalar (.integer 10))).apply initial.logging).1 = .ok () ∧
        ((initial.leveled [] unknown 10).make call).lines = [] ∧
        ((initial.leveled [] unknown 10).make call).result.toOption.isSome = true := by
  intro call last
  refine ⟨by decide +kernel, by decide +kernel, by decide +kernel, ?_⟩
  exact ⟨toOption_eq_some.mp (by decide +kernel), by decide +kernel, by decide +kernel⟩

end Workspace

end StandardForm
