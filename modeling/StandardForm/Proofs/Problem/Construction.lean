import StandardForm.Proofs.Problem.Assembly
import StandardForm.Workspace

/-!
# Constructions in a workspace

What a construction gives depends neither on the workspace nor on the collector: it is the program
that is built from the data in the precision meant, or the fault. What it has found goes to its
collector and to no other, and the logging stays as it is.
-/

namespace StandardForm

variable {p : Precision}

namespace Workspace

variable {α β : Type} (w : Workspace) (collector : Collector)

/-! ## Collectors -/

theorem findings_foldl_record (name other : String) (fs : Findings) :
    (fs.foldl (·.record name ·) w).findings other =
      w.findings other ++ if other = name then fs else [] := by
  induction fs generalizing w with
  | nil => simp
  | cons finding fs ih =>
    rw [List.foldl_cons, ih]
    by_cases h : other = name
    · subst h
      simp
    · simp [h]

theorem findings_collect (fs : Findings) (name : String) :
    (w.collect collector fs).1.findings name =
      w.findings name ++ if collector = .shared name then fs else [] := by
  cases collector with
  | shared other =>
    change (List.foldl (·.record other ·) w fs).findings name = _
    rw [findings_foldl_record]
    simp only [Collector.shared.injEq, eq_comm]
  | own => simp [collect]
  | none => simp [collect]

theorem logging_collect (fs : Findings) : (w.collect collector fs).1.logging = w.logging := by
  cases collector with
  | shared name =>
    change (fs.foldl (·.record name ·) w).logging = w.logging
    induction fs generalizing w with
    | nil => rfl
    | cons finding fs ih => exact ih (w.record name finding)
  | own => rfl
  | none => rfl

theorem collect_nil : (w.collect collector []).1 = w := by
  cases collector <;> rfl

/-! ## Precisions -/

/-- In the precision that a datum means, a program is built as it is in that precision. -/
theorem inPrecision_eq {P : Precision → Type} {precision : Option Datum}
    (hp : precisionOf precision = .ok p)
    (build : (p : Precision) → Except Fault (Repaired (P p))) :
    inPrecision build precision =
      (build p).map fun built => ⟨⟨p, built.value⟩, built.reversed⟩ := by
  rw [inPrecision, hp, ok_bind]
  cases build p <;> rfl

theorem inPrecision_eq_ok {P : Precision → Type}
    {build : (p : Precision) → Except Fault (Repaired (P p))} {precision : Option Datum}
    {r : Repaired ((p : Precision) × P p)} :
    inPrecision build precision = .ok r ↔
      ∃ p built, precisionOf precision = .ok p ∧ build p = .ok built ∧
        r = ⟨⟨p, built.value⟩, built.reversed⟩ := by
  constructor
  · intro h
    obtain ⟨p, hp, h⟩ := bind_eq_ok.mp h
    obtain ⟨built, hbuilt, h⟩ := bind_eq_ok.mp h
    exact ⟨p, built, hp, hbuilt, (pure_eq_ok.mp h).symm⟩
  · rintro ⟨p, built, hp, hbuilt, rfl⟩
    rw [inPrecision_eq hp, hbuilt]
    rfl

/-! ## Outcomes -/

/-- A construction gives what has been built, unless the number of variables is no single value. -/
theorem result_conclude (logger : String) (announce : α → String) (count : Except Fault Unit)
    (built : Except Fault (Repaired α)) :
    (w.conclude collector logger announce count built).result =
      built >>= fun r => count.map fun _ => r.value := by
  cases built with
  | error e => rfl
  | ok r => cases count <;> rfl

/-- In the precision that a datum means, a construction gives the program that is settled there, if
the number of variables passes its check. -/
theorem result_inPrecision {P : Precision → Type} {precision : Option Datum}
    (hp : precisionOf precision = .ok p) (logger : String)
    (announce : ((p : Precision) × P p) → String) (count : Except Fault Unit)
    (settle : (p : Precision) → Except Fault (Repaired (P p))) :
    (w.conclude collector logger announce count (inPrecision settle precision)).result =
      (settle p >>= fun r => count >>= fun _ => pure r).map fun built => ⟨p, built.value⟩ := by
  rw [result_conclude, inPrecision_eq hp]
  cases settle p with
  | error e => rfl
  | ok r => cases count <;> rfl

/-- A construction of a linear program gives the one that is built in the precision meant. -/
theorem result_makeLinear [Spectrum.Routines] {precision : Option Datum}
    (hp : precisionOf precision = .ok p)
    (data : LinearProgram.Data) :
    (w.makeLinear collector precision data).result =
      (LinearProgram.build p data).map fun built => ⟨p, built.value⟩ :=
  w.result_inPrecision collector hp linearLogger _ _ (LinearProgram.settle · data)

/-- A construction of a quadratic program gives the one that is built in the precision meant. -/
theorem result_makeQuadratic [Spectrum.Routines] {precision : Option Datum}
    (hp : precisionOf precision = .ok p)
    (data : QuadraticProgram.Data) :
    (w.makeQuadratic collector precision data).result =
      (QuadraticProgram.build p data).map fun built => ⟨p, built.value⟩ :=
  w.result_inPrecision collector hp quadraticLogger _ _ (QuadraticProgram.settle · data)

/-- What is built may be converted before the construction is concluded, or afterwards. -/
theorem conclude_map {logger logger' : String} {announce : α → String} {announce' : β → String}
    (count : Except Fault Unit) (convert : α → β) (built : Except Fault (Repaired α)) :
    let out := w.conclude collector logger announce count built
    let out' := w.conclude collector logger' announce' count
      (built.map fun r => ⟨convert r.value, r.reversed⟩)
    out'.result = out.result.map convert ∧ out'.findings = out.findings ∧
      out'.workspace = out.workspace := by
  cases built with
  | error e => exact ⟨rfl, rfl, rfl⟩
  | ok r => cases count <;> exact ⟨rfl, rfl, rfl⟩

variable {w collector}

theorem exists_of_result_conclude {logger : String} {announce : α → String}
    {count : Except Fault Unit} {built : Except Fault (Repaired α)} {value : α}
    (h : (w.conclude collector logger announce count built).result = .ok value) :
    ∃ r, built = .ok r ∧ r.value = value := by
  rw [result_conclude] at h
  obtain ⟨r, hr, h⟩ := bind_eq_ok.mp h
  obtain ⟨-, -, hvalue⟩ := map_eq_ok.mp h
  exact ⟨r, hr, hvalue⟩

/-- A construction in a workspace has succeeded, and to its collector, and to no other, it has
handed what it has to say about the bounds that it exchanged at some indices: one finding, or none
if there are none. -/
structure Built (w : Workspace) (collector : Collector) (value : α) (reversed : List Nat)
    (out : Outcome α) : Prop where
  result : out.result = .ok value
  collected : out.findings = match collector with
    | .shared name => some (w.findings name ++ repairs reversed)
    | .own => some (repairs reversed)
    | .none => none
  findings : ∀ name, out.workspace.findings name =
    w.findings name ++ if collector = .shared name then repairs reversed else []

theorem built_conclude (logger : String) (announce : α → String) (built : Repaired α) :
    w.Built collector built.value built.reversed
      (w.conclude collector logger announce (.ok ()) (.ok built)) := by
  constructor
  case result => rfl
  case collected =>
    cases collector with
    | shared name =>
      change some ((List.foldl (·.record name ·) w _).findings name) = _
      rw [findings_foldl_record, if_pos rfl]
    | own => rfl
    | none => rfl
  case findings =>
    intro name
    exact findings_collect w collector (repairs built.reversed) name

end Workspace

end StandardForm
