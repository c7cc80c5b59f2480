import StandardForm.Proofs.Datum.Stored
import StandardForm.Proofs.Logging.Lines
import StandardForm.Proofs.Problem.Box
import StandardForm.Proofs.Problem.Construction

/-!
# What constructions report

Of all that can go wrong in a construction only one thing is noticed after the exchange of bounds
has been reported: that the number of variables has axes around it. By then an array with the
demanded number of entries has been found, so that the datum equals a natural number, and any other
datum that does so is a count. Every other construction reports all or nothing. Where constructions
share their collectors, each of them changes nothing but its own collector, and the findings there
are those of the constructions in the order of the calls.
-/

namespace StandardForm

/-! ## The number of variables -/

def Datum.hasAxes : Datum → Bool
  | .array a => a.shape ≠ []
  | _ => false

theorem Scalar.exists_toInt {s : Scalar} {i : Int} (h : s.equalInt? = some i) :
    ∃ n, s.toInt = .ok n := by
  have hnumber {f : FloatFormat} {x : Binary f} (hx : x.toInt? = some i) :
      ∃ n, truncateNumber x = .ok n := by
    fun_cases Binary.toInt? x with
    | case1 => cases hx
    | case2 => simp_all [Binary.toInt?]
    | case3 s r htop hwhole =>
      have htruncate : (Binary.num s r).truncate? = some i := by
        simpa only [Binary.toInt?, if_neg htop, if_pos hwhole] using hx
      exact ⟨i, by rw [truncateNumber, htruncate]⟩
    | case4 => simp_all [Binary.toInt?]
  cases s with
  | truth b => exact ⟨b.toNat, rfl⟩
  | integer n => exact ⟨n, rfl⟩
  | word n => exact ⟨n, rfl⟩
  | real x => exact hnumber h
  | fixed f x => exact hnumber h
  | absent | text | member => cases h

/-- A datum that equals a natural number is a count unless it has axes. -/
theorem Region.requireCount_of_natural {n : Datum} {k : Nat} (h : n.naturalValue? = .ok (some k)) :
    requireCount (some n) = if n.hasAxes then .error .wrongKind else .ok () := by
  obtain ⟨i, hi, hk⟩ := map_eq_ok.mp h
  obtain ⟨i, rfl, -⟩ := Option.bind_eq_some_iff.mp hk
  cases n with
  | scalar s =>
    obtain ⟨m, hm⟩ := Scalar.exists_toInt (Except.ok.inj hi)
    simp [requireCount, Datum.toInt, Datum.toScalar, Datum.toScalar?, Datum.hasAxes, hm, ok_bind]
  | list items => cases hi
  | array a =>
    obtain ⟨s, hs, hi⟩ := map_eq_ok.mp hi
    obtain ⟨m, hm⟩ := Scalar.exists_toInt hi
    have hentries : a.scalars.entries = [s] := by
      unfold Datum.onlyEntry at hs
      split at hs
      · next s' hs' => exact hs' ▸ congrArg ([·]) (Except.ok.inj hs)
      · cases hs
    by_cases hshape : a.shape = []
    · simp [requireCount, Datum.toInt, Datum.toScalar, Datum.toScalar?, Datum.hasAxes, hshape,
        hentries, hm, ok_bind]
    · simp [requireCount, Datum.toInt, Datum.toScalar, Datum.toScalar?, Datum.hasAxes, hshape]
      rfl

theorem exists_natural_of_fits {n : Datum} {shape : List Nat} (h : fits [n] shape = .ok true) :
    ∃ k, n.naturalValue? = .ok (some k) := by
  cases shape with
  | nil => cases h
  | cons m shape =>
    rw [fits] at h
    cases hn : n.naturalValue? with
    | error e => simp [hn] at h
    | ok k =>
      cases k with
      | none => simp [hn] at h
      | some k => exact ⟨k, rfl⟩

/-- A vector of `n` entries has been found, so `n` is a natural number. -/
theorem Source.exists_natural {f : FloatFormat} {name : String} {s : Source} {n : Datum}
    {v : Shaped (Binary f) [n.dimension]} (h : s.toVector f name n = .ok v) :
    ∃ k, n.naturalValue? = .ok (some k) := by
  cases s with
  | given d =>
    obtain ⟨t, -, h⟩ := bind_eq_ok.mp h
    exact exists_natural_of_fits (Tensor.fits_of_require h)
  | filled shape x =>
    obtain ⟨⟨⟩, -, h⟩ := bind_eq_ok.mp h
    obtain ⟨r, h, -⟩ := bind_eq_ok.mp h
    exact exists_natural_of_fits (fits_of_requireShape h)

theorem LinearProgram.Data.eq_of_count {data : Data} {m n : Datum} (h : data.count = .ok n)
    (hm : m ∈ data.N) : m = n := by
  rw [count, Option.mem_def.mp hm] at h
  exact Except.ok.inj h

theorem QuadraticProgram.Data.eq_of_count {p : Precision} {data : Data} {m n : Datum}
    (h : data.count p = .ok n) (hm : m ∈ data.N) : m = n := by
  obtain ⟨V, -, rfl⟩ := map_eq_ok.mp h
  rw [Option.mem_def.mp hm]
  rfl

namespace Workspace

/-! ## Calls -/

abbrev AnyProgram := AnyLinear ⊕ AnyQuadratic

/-- A call for the construction of a linear or a quadratic program. -/
structure Call where
  collector : Collector
  precision : Option Datum
  data : LinearProgram.Data ⊕ QuadraticProgram.Data

namespace Call

/-- The number of variables as it is given, if it is. -/
def given (call : Call) : Option Datum := call.data.elim (·.N) (·.N)

/-- The datum that the number of variables is read from. -/
def count (call : Call) (p : Precision) : Except Fault Datum :=
  call.data.elim (·.count) (·.count p)

def lower (call : Call) : Option Datum := call.data.elim (·.region.d) (·.d)

def upper (call : Call) : Option Datum := call.data.elim (·.region.u) (·.u)

def logger (call : Call) : String := call.data.elim (fun _ => linearLogger) fun _ => quadraticLogger

/-- The indices at which the converted upper bound is below the converted lower one. -/
def reversed (call : Call) : Except Fault (List Nat) := do
  let p ← precisionOf call.precision
  let n ← call.count p
  let lower ← Source.vector call.lower n 0
  let lower ← lower.toVector p.format "d" n
  let upper ← Source.vector call.upper n (.infinity false)
  let upper ← upper.toVector p.format "u" n
  return Region.indicesWhere (fun d u => u.lt d) lower.1.entries upper.1.entries

/-- The program that the call leads to, the number of variables being checked no further. -/
def settled [Spectrum.Routines] (call : Call) : Except Fault (Repaired AnyProgram) :=
  match call.data with
  | .inl data => (inPrecision (LinearProgram.settle · data) call.precision).map
      fun built => ⟨.inl built.value, built.reversed⟩
  | .inr data => (inPrecision (QuadraticProgram.settle · data) call.precision).map
      fun built => ⟨.inr built.value, built.reversed⟩

variable {call : Call}

theorem reversed_eq {p : Precision} {n : Datum} {lower upper : Shaped p.Entry [n.dimension]}
    (hp : precisionOf call.precision = .ok p) (hn : call.count p = .ok n)
    (h : ConvertedBounds p n call.lower call.upper lower upper) :
    call.reversed =
      .ok (Region.indicesWhere (fun d u => u.lt d) lower.1.entries upper.1.entries) := by
  obtain ⟨d, hd, hlower⟩ := bind_eq_ok.mp h.lower
  obtain ⟨u, hu, hupper⟩ := bind_eq_ok.mp h.upper
  simp only [reversed, hp, hn, hd, hlower, hu, hupper, ok_bind]
  rfl

theorem requireCount_given {p : Precision} {n : Datum} {lower upper : Shaped p.Entry [n.dimension]}
    (hn : ∀ m ∈ call.given, m = n)
    (h : ConvertedBounds p n call.lower call.upper lower upper) :
    Region.requireCount call.given =
      if call.given.any Datum.hasAxes then .error .wrongKind else .ok () := by
  cases hgiven : call.given with
  | none => rfl
  | some m =>
    cases hn m (Option.mem_def.mpr hgiven)
    obtain ⟨d, -, hlower⟩ := bind_eq_ok.mp h.lower
    obtain ⟨k, hk⟩ := Source.exists_natural hlower
    exact Region.requireCount_of_natural hk

/-- When a program is settled, its bounds have been exchanged where the converted ones are in
reverse order, and the only fault left is a number of variables with axes. -/
theorem exists_of_settled [Spectrum.Routines] {built : Repaired AnyProgram}
    (h : call.settled = .ok built) :
    call.reversed = .ok built.reversed ∧
      Region.requireCount call.given =
        if call.given.any Datum.hasAxes then .error .wrongKind else .ok () := by
  obtain ⟨collector, precision, data | data⟩ := call
  · obtain ⟨r, hr, rfl⟩ := map_eq_ok.mp h
    obtain ⟨p, built, hp, hbuilt, rfl⟩ := inPrecision_eq_ok.mp hr
    obtain ⟨n, lower, upper, hn, hbounds, R, hd, hu, -, -, hreversed⟩ :=
      LinearProgram.exists_checked_of_settle hbuilt
    refine ⟨?_, requireCount_given (fun m => LinearProgram.Data.eq_of_count hn) hbounds⟩
    rw [reversed_eq hp hn hbounds, ← hd, ← hu]
    exact congrArg Except.ok hreversed.symm
  · obtain ⟨r, hr, rfl⟩ := map_eq_ok.mp h
    obtain ⟨p, built, hp, hbuilt, rfl⟩ := inPrecision_eq_ok.mp hr
    obtain ⟨n, lower, upper, hn, hbounds, R, hd, hu, -, -, hreversed⟩ :=
      QuadraticProgram.exists_checked_of_settle hbuilt
    refine ⟨?_, requireCount_given (fun m => QuadraticProgram.Data.eq_of_count hn) hbounds⟩
    rw [reversed_eq hp hn hbounds, ← hd, ← hu]
    exact congrArg Except.ok hreversed.symm

end Call

/-- What is said in the log about the dimensions of a program. -/
def AnyProgram.dimensions : AnyProgram → String
  | .inl P => dimensionsText "LP" P.2.toRegion
  | .inr P => dimensionsText "QP" P.2.toRegion

def make [Spectrum.Routines] (w : Workspace) (call : Call) : Outcome AnyProgram :=
  match call.data with
  | .inl data =>
    let out := w.makeLinear call.collector call.precision data
    { out with result := out.result.map .inl }
  | .inr data =>
    let out := w.makeQuadratic call.collector call.precision data
    { out with result := out.result.map .inr }

theorem make_eq [Spectrum.Routines] (w : Workspace) (call : Call) :
    w.make call = w.conclude call.collector call.logger AnyProgram.dimensions
      (Region.requireCount call.given) call.settled := by
  obtain ⟨collector, precision, data | data⟩ := call
  · simp only [make, makeLinear, Call.settled, Call.given, Sum.elim_inl]
    cases inPrecision (LinearProgram.settle · data) precision with
    | error e => rfl
    | ok built => cases Region.requireCount data.N <;> rfl
  · simp only [make, makeQuadratic, Call.settled, Call.given, Sum.elim_inr]
    cases inPrecision (QuadraticProgram.settle · data) precision with
    | error e => rfl
    | ok built => cases Region.requireCount data.N <;> rfl

/-- What is said in the log about bounds that were exchanged at some indices. -/
def repairText (reversed : List Nat) : String :=
  boundsSwappedMessage ++ ": indices " ++ Notice.indexList (reversed.map Int.ofNat)

/-- The line about bounds that were exchanged at some indices, provided that there are any and that
warnings pass. -/
def repairLines (w : Workspace) (reversed : List Nat) : List String :=
  if reversed ≠ [] ∧ w.logging.Passes .warning then
    (w.logging.layOut linearLogger .warning (repairText reversed)).toList
  else []

/-- The line about the dimensions of a program, if messages for debugging pass. -/
def dimensionLines (w : Workspace) (logger : String) (P : AnyProgram) : List String :=
  if w.logging.Passes .debug then (w.logging.layOut logger .debug P.dimensions).toList else []

theorem toList_repairLine (w : Workspace) (reversed : List Nat) :
    (w.repairLine reversed).toList = w.repairLines reversed := by
  by_cases h : reversed = []
  · simp [repairLine, repairLines, h]
  · rw [repairLine, if_neg h, Logging.toList_written, repairLines, repairText]
    simp only [ne_eq, h, not_false_eq_true, true_and]

/-- There is a line about exchanged bounds exactly if there are any and warnings pass, as long as
the template makes a line of every record. -/
theorem length_repairLines {w : Workspace} (h : w.logging.MakesLines) (reversed : List Nat) :
    (w.repairLines reversed).length =
      if reversed ≠ [] ∧ w.logging.Passes .warning then 1 else 0 := by
  obtain ⟨line, hline⟩ := Option.isSome_iff_exists.mp
    (h.isSome_layOut linearLogger .warning (repairText reversed))
  rw [repairLines, hline]
  split <;> rfl

/-- There is a line about the dimensions exactly if messages for debugging pass, under the same
condition. -/
theorem length_dimensionLines {w : Workspace} (h : w.logging.MakesLines) (logger : String)
    (P : AnyProgram) :
    (w.dimensionLines logger P).length = if w.logging.Passes .debug then 1 else 0 := by
  obtain ⟨line, hline⟩ := Option.isSome_iff_exists.mp (h.isSome_layOut logger .debug P.dimensions)
  rw [dimensionLines, hline]
  split <;> rfl

/-! ## One call -/

/-- A call reports all or nothing. When it fails, nothing has been reported, except where it fails
because the number of variables has axes: then converted bounds that were in reverse order have
been reported. When it succeeds, its collector gets one finding if converted bounds were in reverse
order and none otherwise; the log gets what the template makes of a warning with the same indices in
the first case, provided that warnings pass, and of a message about the dimensions, provided that
messages for debugging pass. -/
structure AllOrNothing (w : Workspace) (call : Call) (out : Outcome AnyProgram) : Prop where
  logging : out.workspace.logging = w.logging
  others : ∀ name, call.collector ≠ .shared name → out.workspace.findings name = w.findings name
  failed : ∀ e, out.result = .error e →
    out.workspace = w ∧ out.lines = [] ∨
      e = .wrongKind ∧ call.given.any Datum.hasAxes ∧
        ∃ reversed, call.reversed = .ok reversed ∧ reversed ≠ [] ∧
          (∀ name, call.collector = .shared name →
            out.workspace.findings name = w.findings name ++ [.boundsSwapped reversed]) ∧
          out.lines = w.repairLines reversed
  succeeded : ∀ P, out.result = .ok P → ∃ reversed, call.reversed = .ok reversed ∧
    w.Built call.collector P reversed out ∧
    out.lines = w.repairLines reversed ++ w.dimensionLines call.logger P

section Settled

variable {call : Call} {built : Repaired AnyProgram}

theorem findings_collect_of_ne (w : Workspace) {collector : Collector} (fs : Findings)
    {name : String} (h : collector ≠ .shared name) :
    (w.collect collector fs).1.findings name = w.findings name := by
  rw [findings_collect, if_neg h, List.append_nil]

/-- What has been settled is reported, even if the number of variables is refused afterwards. -/
theorem allOrNothing_refused (w : Workspace) (hreversed : call.reversed = .ok built.reversed)
    (haxes : call.given.any Datum.hasAxes) :
    w.AllOrNothing call (w.conclude call.collector call.logger AnyProgram.dimensions
      (.error .wrongKind) (.ok built)) := by
  constructor
  case logging => exact logging_collect w call.collector (repairs built.reversed)
  case others => exact fun name h => w.findings_collect_of_ne (repairs built.reversed) h
  case failed =>
    intro e he
    cases he
    by_cases hnone : built.reversed = []
    · refine .inl ⟨?_, ?_⟩
      · change (w.collect call.collector (repairs built.reversed)).1 = w
        rw [hnone]
        exact collect_nil w call.collector
      · change (w.repairLine built.reversed).toList = []
        rw [hnone]
        rfl
    · refine .inr ⟨rfl, haxes, built.reversed, hreversed, hnone, fun name hname => ?_, ?_⟩
      · change (w.collect call.collector (repairs built.reversed)).1.findings name = _
        rw [findings_collect, if_pos hname, repairs, if_neg hnone]
      · exact toList_repairLine w built.reversed
  case succeeded => exact fun P hP => nomatch hP

/-- A construction that succeeds reports what has been settled. -/
theorem allOrNothing_built (w : Workspace) (hreversed : call.reversed = .ok built.reversed) :
    w.AllOrNothing call (w.conclude call.collector call.logger AnyProgram.dimensions
      (.ok ()) (.ok built)) := by
  constructor
  case logging => exact logging_collect w call.collector (repairs built.reversed)
  case others => exact fun name h => w.findings_collect_of_ne (repairs built.reversed) h
  case failed => exact fun e he => nomatch he
  case succeeded =>
    intro P hP
    cases hP
    refine ⟨built.reversed, hreversed, built_conclude _ _ built, ?_⟩
    rw [← toList_repairLine, dimensionLines, ← Logging.toList_written]
    rfl

end Settled

section Sessions

variable [Spectrum.Routines]

theorem allOrNothing_make (w : Workspace) (call : Call) : w.AllOrNothing call (w.make call) := by
  rw [make_eq]
  cases hsettled : call.settled with
  | error e =>
    constructor
    case logging => rfl
    case others => exact fun _ _ => rfl
    case failed => exact fun _ _ => .inl ⟨rfl, rfl⟩
    case succeeded => exact fun P hP => nomatch hP
  | ok built =>
    obtain ⟨hreversed, hcount⟩ := Call.exists_of_settled hsettled
    by_cases haxes : call.given.any Datum.hasAxes = true
    · rw [hcount, if_pos haxes]
      exact w.allOrNothing_refused hreversed haxes
    · rw [hcount, if_neg haxes]
      exact w.allOrNothing_built hreversed

/-! ## Sessions -/

/-- The outcomes of some calls, one after the other, and the workspace after them. -/
def makeAll (w : Workspace) : List Call → List (Outcome AnyProgram) × Workspace
  | [] => ([], w)
  | call :: calls =>
    let out := w.make call
    let (outs, after) := out.workspace.makeAll calls
    (out :: outs, after)

/-- The finding that a call owes to its collector with a name, if it has succeeded and exchanged
bounds. -/
def Call.finding? (name : String) (call : Call) (out : Outcome AnyProgram) : Option Finding :=
  if call.collector = .shared name ∧ out.result.toOption.isSome then
    match call.reversed with
    | .ok (i :: is) => some (.boundsSwapped (i :: is))
    | _ => none
  else none

theorem findings_make {name : String} {call : Call}
    (h : call.collector = .shared name → call.given.any Datum.hasAxes = false) (w : Workspace) :
    (w.make call).workspace.findings name =
      w.findings name ++ (call.finding? name (w.make call)).toList := by
  have hmake := allOrNothing_make w call
  by_cases hname : call.collector = .shared name
  · cases hresult : (w.make call).result with
    | error e =>
      obtain ⟨hworkspace, -⟩ | ⟨-, haxes, -⟩ := hmake.failed e hresult
      · simp [hworkspace, Call.finding?, hresult, Except.toOption]
      · cases (h hname).symm.trans haxes
    | ok P =>
      obtain ⟨reversed, hreversed, hbuilt, -⟩ := hmake.succeeded P hresult
      rw [hbuilt.findings, if_pos hname]
      cases reversed <;> simp [Call.finding?, hname, hresult, hreversed, repairs, Except.toOption]
  · simp [hmake.others name hname, Call.finding?, hname]

theorem findings_makeAll {name : String} {calls : List Call}
    (h : ∀ call ∈ calls, call.collector = .shared name → call.given.any Datum.hasAxes = false)
    (w : Workspace) :
    (w.makeAll calls).2.findings name = w.findings name ++
      (calls.zip (w.makeAll calls).1).filterMap fun made => made.1.finding? name made.2 := by
  induction calls generalizing w with
  | nil => simp [makeAll]
  | cons call calls ih =>
    have hrest := ih (fun c hc => h c (List.mem_cons_of_mem call hc)) (w.make call).workspace
    have hfirst := findings_make (h call List.mem_cons_self) w
    simp only [makeAll, hrest, hfirst, List.zip_cons_cons, List.append_assoc]
    cases hfinding : call.finding? name (w.make call) <;> simp [hfinding]

/-- Every call reports all or nothing, unless the number of variables has axes. What it reports to
the log are single lines as long as the template makes a line of every record. After a session a
collector, none of whose calls gives the number of variables so, has one more finding for each of
its calls that has succeeded and exchanged bounds, in the order of the calls. -/
theorem makes_report_all_or_nothing :
    (∀ (w : Workspace) (call : Call), w.AllOrNothing call (w.make call)) ∧
    (∀ w : Workspace, w.logging.MakesLines →
      (∀ reversed, (w.repairLines reversed).length =
        if reversed ≠ [] ∧ w.logging.Passes .warning then 1 else 0) ∧
      ∀ logger P, (w.dimensionLines logger P).length =
        if w.logging.Passes .debug then 1 else 0) ∧
    ∀ (w : Workspace) (calls : List Call) (name : String),
      (∀ call ∈ calls, call.collector = .shared name →
        call.given.any Datum.hasAxes = false) →
      (w.makeAll calls).2.findings name = w.findings name ++
        (calls.zip (w.makeAll calls).1).filterMap fun made => made.1.finding? name made.2 := by
  refine ⟨allOrNothing_make, fun w h => ?_, fun w calls name h => findings_makeAll h w⟩
  exact ⟨length_repairLines h, length_dimensionLines h⟩

end Sessions

/-- Bounds in reverse order of as many variables as an array with one axis says. -/
def countedBounds : LinearProgram.Data where
  c := LinearProgram.reversedBounds.c
  N := some (.array (.words ⟨[1], [2], rfl⟩))
  region :=
    { LinearProgram.reversedBounds.region with
      G := some (.array (.words ⟨[0, 2], [], rfl⟩)) }

/-- Of the calls with one collector the first and the last succeed, and one between them fails. A
call with another collector fails after its report. -/
theorem makes_report_all_or_nothing_reversedBounds :
    let reversed : Call := ⟨.shared "log", none, .inl LinearProgram.reversedBounds⟩
    let refused : Call := ⟨.shared "log", none,
      .inl { LinearProgram.reversedBounds with N := some (.integer 3) }⟩
    let counted : Call := ⟨.own, none, .inl countedBounds⟩
    (initial.makeAll [reversed, refused, counted, reversed]).2.findings "log" =
      [.boundsSwapped [0], .boundsSwapped [0]] := by
  intro reversed refused counted
  have hcounts : ∀ call ∈ [reversed, refused, counted, reversed],
      call.collector = .shared "log" → call.given.any Datum.hasAxes = false := by
    decide +kernel
  have hsession := makes_report_all_or_nothing.2.2 initial [reversed, refused, counted, reversed]
    "log" hcounts
  let out₁ := initial.make reversed
  let out₂ := out₁.workspace.make refused
  let out₃ := out₂.workspace.make counted
  let out₄ := out₃.workspace.make reversed
  have h₁ : out₁.result.toOption.isSome = true := by decide +kernel
  have h₂ : out₂.result.toOption.isSome = false := by decide +kernel
  have h₄ : out₄.result.toOption.isSome = true := by decide +kernel
  have hindices : reversed.reversed = .ok [0] := toOption_eq_some.mp (by decide +kernel)
  refine hsession.trans ?_
  change [] ++ [(reversed, out₁), (refused, out₂), (counted, out₃), (reversed, out₄)].filterMap
    (fun made => made.1.finding? "log" made.2) = _
  simp only [Call.finding?, h₁, h₂, h₄, hindices, List.filterMap_cons, List.filterMap_nil]
  rfl

/-- A call that fails, because the number of variables has an axis, has reported the exchange of
bounds before. A call that succeeds reports it to its collector only, although warnings pass, if the
template is accepted but cannot be filled. -/
theorem makes_report_before_failing :
    (let out := initial.make ⟨.shared "log", none, .inl countedBounds⟩;
      (∃ e, out.result = .error e) ∧ out.workspace.findings "log" ≠ initial.findings "log" ∧
        out.lines ≠ []) ∧
    let configured := initial.logging.configureOn (.scalar (.text "WARNING"))
      (.scalar (.text "%(message)s in %(place)s")) .errors
    let w : Workspace := { initial with logging := configured.2 }
    let out := w.make ⟨.shared "log", none, .inl LinearProgram.reversedBounds⟩
    configured.1 = .ok () ∧ w.logging.Passes .warning ∧ out.result.toOption.isSome = true ∧
      out.workspace.findings "log" ≠ w.findings "log" ∧ out.lines = [] := by
  have hgrows {w : Workspace} {fs : Findings} (h : fs.length = 1) (hw : w.findings "log" = []) :
      fs ≠ w.findings "log" := by
    rintro rfl
    rw [hw] at h
    cases h
  constructor
  · intro out
    have hresult : out.result.toOption.isNone = true := by decide +kernel
    have hlines : out.lines.length = 1 := by decide +kernel
    refine ⟨?_, hgrows (by decide +kernel) rfl, fun h => by rw [h] at hlines; cases hlines⟩
    cases hout : out.result with
    | error e => exact ⟨e, rfl⟩
    | ok P => simp [hout, Except.toOption] at hresult
  · intro configured w out
    exact ⟨toOption_eq_some.mp (by decide +kernel), by decide +kernel, by decide +kernel,
      hgrows (by decide +kernel) rfl, by decide +kernel⟩

end Workspace

end StandardForm
