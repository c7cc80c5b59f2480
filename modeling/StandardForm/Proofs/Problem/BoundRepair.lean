import StandardForm.Proofs.Problem.Construction
import StandardForm.Proofs.Problem.Exchange

/-!
# Repaired bounds and what is reported about them

A construction either fails before any bounds are exchanged, and then it fails in the same way
whichever order the caller gives them in, or it leads to a program with the lesser bound of every
variable below the greater one. What it reports to its collector is where it had to exchange them.
-/

namespace StandardForm

variable {p : Precision} (S : Finset Nat)

/-- A program whose bounds of the variables in `S` have been given in the other order. -/
def Repaired.toggle {α : Type} (n : Nat) (r : Repaired α) : Repaired α :=
  ⟨r.value, toggled S n r.reversed⟩

namespace LinearProgram

/-- The program with the bounds of the variables in `S` exchanged. -/
def exchange (P : LinearProgram p) : LinearProgram p :=
  { P.toRegion.exchange S with c := P.c, c_shape := P.c_shape }

theorem repair_exchange {P : LinearProgram p} (h : P.toRegion.Distinct) :
    (P.exchange S).repair = P.repair.toggle S P.N := by
  have hregion := h.orderBounds_exchange S
  have hvalue : (P.exchange S).repair.value = P.repair.value :=
    LinearProgram.ext rfl rfl rfl rfl rfl rfl rfl (congrArg Region.d hregion)
      (congrArg Region.u hregion) rfl
  exact congr (congrArg Repaired.mk hvalue) (h.reversed_exchange S)

section Assembled

variable [Spectrum.Routines] {n : Datum} {α : Type}
  (k : (P : LinearProgram p) → P.N = n.dimension → α)

theorem finish_of_check {P : { P : LinearProgram p // P.N = n.dimension }} (h : P.1.check = .ok ())
    {r : Repaired (LinearProgram p)} (hr : P.1.repair = r) (hN : r.value.N = n.dimension) :
    finish k P = .ok ⟨k r.value hN, r.reversed⟩ := by
  subst hr
  exact finish_eq_ok.mpr ⟨h, rfl⟩

/-- A program that passes the checks passes them with some of its bounds exchanged, and after the
repair it is the same. -/
theorem finish_exchange {P : { P : LinearProgram p // P.N = n.dimension }}
    (hlower : NaNFree P.1.d.entries) (hupper : NaNFree P.1.u.entries) :
    finish k ⟨P.1.exchange S, P.2⟩ = (finish k P).map (Repaired.toggle S n.dimension) := by
  have hcheck : (P.1.exchange S).check = P.1.check := Region.check_exchange S
  cases h : P.1.check with
  | error e =>
    rw [finish, finish, hcheck, h]
    rfl
  | ok =>
    have hrepair := repair_exchange S (Region.distinct_of_check hlower hupper h)
    rw [finish_of_check k h rfl P.2, finish_of_check k (hcheck.trans h) hrepair P.2]
    let r : Repaired α := ⟨k P.1.repair.value P.2, P.1.repair.reversed⟩
    exact congrArg (fun N => (.ok (r.toggle S N) : Except Fault (Repaired α))) P.2

variable {name : String} {costs A b : Source} {G g d u d' u' : Option Datum}
  {lower upper : Shaped p.Entry [n.dimension]}

/-- From exchanged bounds the same program is built, or the same fault arises. -/
theorem assemble_exchange (h : ConvertedBounds p n d u lower upper)
    (hlower : NaNFree lower.1.entries) (hupper : NaNFree upper.1.entries)
    (h' : ConvertedBounds p n d' u' (lower.exchangedAt S upper) (upper.exchangedAt S lower)) :
    (assemble p n name costs A b G g d' u' >>= finish k) =
      (assemble p n name costs A b G g d u >>= finish k).map (Repaired.toggle S n.dimension) := by
  rw [assemble_withBounds h h']
  cases hP : assemble p n name costs A b G g d u with
  | error e => rfl
  | ok P =>
    obtain ⟨hd, hu⟩ := bounds_of_assemble hP h
    have hexchange : P.1.withBounds (.recount P.2 (lower.exchangedAt S upper))
        (.recount P.2 (upper.exchangedAt S lower)) = P.1.exchange S := by
      obtain ⟨lower, hlower⟩ := lower
      obtain ⟨upper, hupper⟩ := upper
      subst hd hu
      rfl
    have hfinish := finish_exchange S k (hd ▸ hlower) (hu ▸ hupper)
    simp only [Except.map, ok_bind, hexchange]
    exact hfinish

end Assembled

/-- A linear program from exchanged bounds. -/
theorem settle_exchange [Spectrum.Routines] {data : Data} {n : Datum}
    {lower upper : Shaped p.Entry [n.dimension]}
    {d' u' : Option Datum} (hn : data.count = .ok n)
    (h : ConvertedBounds p n data.region.d data.region.u lower upper)
    (hlower : NaNFree lower.1.entries) (hupper : NaNFree upper.1.entries)
    (h' : ConvertedBounds p n d' u' (lower.exchangedAt S upper) (upper.exchangedAt S lower)) :
    settle p { data with region := { data.region with d := d', u := u' } } =
      (settle p data).map (Repaired.toggle S n.dimension) := by
  have hn' : Data.count { data with region := { data.region with d := d', u := u' } } = .ok n := hn
  rw [settle_eq, settle_eq, hn, hn', ok_bind, ok_bind]
  exact assemble_exchange S _ h hlower hupper h'

end LinearProgram

namespace QuadraticProgram

/-- A quadratic program from exchanged bounds. -/
theorem settle_exchange [Spectrum.Routines] {data : Data} {n : Datum}
    {lower upper : Shaped p.Entry [n.dimension]}
    {d' u' : Option Datum} (hn : data.count p = .ok n)
    (h : ConvertedBounds p n data.d data.u lower upper)
    (hlower : NaNFree lower.1.entries) (hupper : NaNFree upper.1.entries)
    (h' : ConvertedBounds p n d' u' (lower.exchangedAt S upper) (upper.exchangedAt S lower)) :
    settle p { data with d := d', u := u' } =
      (settle p data).map (Repaired.toggle S n.dimension) := by
  obtain ⟨V, hV, rfl⟩ := map_eq_ok.mp hn
  unfold settle
  simp only [hV, ok_bind, map_bind, settleOver_eq,
    LinearProgram.assemble_exchange S _ h hlower hupper h']

end QuadraticProgram

/-- The bounds of a region are the lesser and the greater one of each pair of given bounds, and the
pairs in reverse order are those at the given indices. -/
structure Region.RepairOf (R : Region p) (lower upper : List p.Entry) (reversed : List Nat) :
    Prop where
  d_entries : R.d.entries = List.zipWith Binary.min lower upper
  u_entries : R.u.entries = List.zipWith Binary.max lower upper
  ascending : reversed.Pairwise (· < ·)
  mem_iff : ∀ i, i ∈ reversed ↔ ∃ x y, lower[i]? = some x ∧ upper[i]? = some y ∧ y < x

theorem Region.repairOf_orderBounds [Spectrum.Routines] {R : Region p} {n : Nat}
    {lower upper : Shaped p.Entry [n]}
    (hlower : NaNFree lower.1.entries) (hupper : NaNFree upper.1.entries) (hd : R.d = lower.1)
    (hu : R.u = upper.1) (h : R.check = .ok ()) :
    R.orderBounds.RepairOf lower.1.entries upper.1.entries R.reversed ∧
      ∀ i ∈ R.reversed, i < n := by
  have hN : R.N = n := by
    have hshape := R.d_shape
    rw [hd, lower.2] at hshape
    exact (List.cons.inj hshape).1.symm
  rw [← hd] at hlower ⊢
  rw [← hu] at hupper ⊢
  have hentries := (distinct_of_check hlower hupper h).entries_orderBounds
  exact ⟨⟨hentries.1, hentries.2, pairwise_indicesWhere _ _ _, fun _ => mem_reversed⟩,
    fun i hi => hN ▸ lt_of_mem_reversed hi⟩

namespace Workspace

variable {α β : Type} {w : Workspace} {collector : Collector}

/-- The outcomes of two constructions whose bounds are those in two lists, and the same exchanged at
the indices in `S`. Either both fail with one fault, or both succeed with one program, the bounds of
which are the lesser and the greater one of each pair. The collector learns then of the pairs in
reverse order, in the second case of the same ones except at the indices in `S`. -/
def AgreeUpToExchange (w : Workspace) (collector : Collector) (lower upper : List p.Entry)
    (program : β → α) (region : β → Region p) (out out' : Outcome α) : Prop :=
  (∃ e, out.result = .error e ∧ out'.result = .error e) ∨
    ∃ (P : β) (reversed reversed' : List Nat),
      w.Built collector (program P) reversed out ∧
      w.Built collector (program P) reversed' out' ∧
      (region P).RepairOf lower upper reversed ∧
      reversed'.Pairwise (· < ·) ∧ reversed'.toFinset = symmDiff reversed.toFinset S

theorem agreeUpToExchange_conclude {lower upper : List p.Entry} {program : β → α}
    {region : β → Region p} {settled : Except Fault (Repaired β)} {n : Nat}
    (hS : S ⊆ Finset.range n)
    (hsettled : ∀ built, settled = .ok built →
      (region built.value).RepairOf lower upper built.reversed ∧ ∀ i ∈ built.reversed, i < n)
    (logger : String) (announce : α → String) (count : Except Fault Unit) :
    w.AgreeUpToExchange S collector lower upper program region
      (w.conclude collector logger announce count
        (settled.map fun built => ⟨program built.value, built.reversed⟩))
      (w.conclude collector logger announce count
        ((settled.map (Repaired.toggle S n)).map fun built =>
          ⟨program built.value, built.reversed⟩)) := by
  cases settled with
  | error e => exact .inl ⟨e, rfl, rfl⟩
  | ok built =>
    cases count with
    | error e => exact .inl ⟨e, rfl, rfl⟩
    | ok =>
      obtain ⟨hrepair, hlt⟩ := hsettled built rfl
      exact .inr ⟨built.value, built.reversed, toggled S n built.reversed,
        built_conclude logger announce ⟨program built.value, built.reversed⟩,
        built_conclude logger announce ⟨program built.value, toggled S n built.reversed⟩,
        hrepair, pairwise_toggled S n _, toFinset_toggled S hS hlt⟩

/-- Bounds without a NaN are repaired exactly, and in whichever order they are given. -/
theorem makes_agree_of_exchanged_bounds [Spectrum.Routines] (w : Workspace) (collector : Collector)
    {precision : Option Datum} (hp : precisionOf precision = .ok p) :
    (∀ (data : LinearProgram.Data) (n : Datum) (lower upper : Shaped p.Entry [n.dimension])
      (S : Finset Nat) (d' u' : Option Datum),
      data.count = .ok n → ConvertedBounds p n data.region.d data.region.u lower upper →
      NaNFree lower.1.entries → NaNFree upper.1.entries → S ⊆ Finset.range n.dimension →
      ConvertedBounds p n d' u' (lower.exchangedAt S upper) (upper.exchangedAt S lower) →
      w.AgreeUpToExchange S collector lower.1.entries upper.1.entries
        (fun P : LinearProgram p => (⟨p, P⟩ : AnyLinear)) (·.toRegion)
        (w.makeLinear collector precision data)
        (w.makeLinear collector precision
          { data with region := { data.region with d := d', u := u' } })) ∧
    ∀ (data : QuadraticProgram.Data) (n : Datum) (lower upper : Shaped p.Entry [n.dimension])
      (S : Finset Nat) (d' u' : Option Datum),
      data.count p = .ok n → ConvertedBounds p n data.d data.u lower upper →
      NaNFree lower.1.entries → NaNFree upper.1.entries → S ⊆ Finset.range n.dimension →
      ConvertedBounds p n d' u' (lower.exchangedAt S upper) (upper.exchangedAt S lower) →
      w.AgreeUpToExchange S collector lower.1.entries upper.1.entries
        (fun P : QuadraticProgram p => (⟨p, P⟩ : AnyQuadratic)) (·.toRegion)
        (w.makeQuadratic collector precision data)
        (w.makeQuadratic collector precision { data with d := d', u := u' }) := by
  constructor
  · intro data n lower upper S d' u' hn h hlower hupper hS h'
    unfold makeLinear
    rw [inPrecision_eq hp, inPrecision_eq hp,
      LinearProgram.settle_exchange S hn h hlower hupper h']
    refine agreeUpToExchange_conclude S hS (fun built hbuilt => ?_) _ _ _
    obtain ⟨n', _, _, hn', h', R, hd, hu, hcheck, hregion, hreversed⟩ :=
      LinearProgram.exists_checked_of_settle hbuilt
    cases hn.symm.trans hn'
    cases h.lower.symm.trans h'.lower
    cases h.upper.symm.trans h'.upper
    rw [hregion, hreversed]
    exact Region.repairOf_orderBounds hlower hupper hd hu hcheck
  · intro data n lower upper S d' u' hn h hlower hupper hS h'
    unfold makeQuadratic
    rw [inPrecision_eq hp, inPrecision_eq hp,
      QuadraticProgram.settle_exchange S hn h hlower hupper h']
    refine agreeUpToExchange_conclude S hS (fun built hbuilt => ?_) _ _ _
    obtain ⟨n', _, _, hn', h', R, hd, hu, hcheck, hregion, hreversed⟩ :=
      QuadraticProgram.exists_checked_of_settle hbuilt
    cases hn.symm.trans hn'
    cases h.lower.symm.trans h'.lower
    cases h.upper.symm.trans h'.upper
    rw [hregion, hreversed]
    exact Region.repairOf_orderBounds hlower hupper hd hu hcheck

/-- The bounds of the second variable in the other order, too. -/
theorem makes_agree_reversedBounds :
    ∃ (P : LinearProgram .standard) (reversed reversed' : List Nat),
      initial.Built .own (⟨.standard, P⟩ : AnyLinear) reversed
        (initial.makeLinear .own none LinearProgram.reversedBounds) ∧
      initial.Built .own (⟨.standard, P⟩ : AnyLinear) reversed'
        (initial.makeLinear .own none { LinearProgram.reversedBounds with
          region := { LinearProgram.reversedBounds.region with
            d := some (.list [.integer 5, .scalar (.real (.infinity false))])
            u := some (.list [.integer 1, .integer (-1)]) } }) ∧
      P.d.entries = [.ofInt .double 1, .ofInt .double (-1)] ∧
      reversed'.toFinset = symmDiff reversed.toFinset {1} := by
  let lower : Shaped Double [2] := ⟨⟨[2], [.ofInt .double 5, .ofInt .double (-1)], rfl⟩, rfl⟩
  let upper : Shaped Double [2] := ⟨⟨[2], [.ofInt .double 1, .infinity false], rfl⟩, rfl⟩
  have hbounds : ConvertedBounds .standard (.integer 2) LinearProgram.reversedBounds.region.d
      LinearProgram.reversedBounds.region.u lower upper :=
    ⟨toOption_eq_some.mp (by decide +kernel), toOption_eq_some.mp (by decide +kernel)⟩
  have hexchanged : ConvertedBounds .standard (.integer 2)
      (some (.list [.integer 5, .scalar (.real (.infinity false))]))
      (some (.list [.integer 1, .integer (-1)])) (lower.exchangedAt {1} upper)
      (upper.exchangedAt {1} lower) :=
    ⟨toOption_eq_some.mp (by decide +kernel), toOption_eq_some.mp (by decide +kernel)⟩
  have hprecision : precisionOf none = .ok .standard := rfl
  have hagree := (makes_agree_of_exchanged_bounds initial .own hprecision).1
    LinearProgram.reversedBounds (.integer 2) lower upper {1} _ _ rfl hbounds
    (by decide +kernel) (by decide +kernel) (by decide) hexchanged
  have hsome : (initial.makeLinear .own none LinearProgram.reversedBounds).result.toOption.isSome =
      true := by
    decide +kernel
  obtain ⟨e, he, -⟩ | ⟨P, reversed, reversed', h, h', hrepair, -, hset⟩ := hagree
  · rw [he] at hsome
    cases hsome
  · exact ⟨P, reversed, reversed', h, h', hrepair.d_entries.trans (by decide +kernel), hset⟩

end Workspace

end StandardForm
