import Mathlib.Data.EReal.Basic
import StandardForm.Event
import StandardForm.Proofs.Binary.Mean
import StandardForm.Proofs.Binary.Widening

/-!
# Equality of events

Parameters of all widths are numbers of 80 bits. Two of them are compared as such, except that a
number without a width of its own is rounded to 32 bits where it meets a number of 32 bits. Leaving
that case aside, equal parameters denote the same number, and equality of events is an equivalence
relation. In that case it is still reflexive and symmetric, but a number that 32 bits do not hold
equals its rounding, and whatever equals one of the two may differ from the other.
-/

namespace StandardForm

namespace Binary

variable {f g h : FloatFormat}

/-! ## What a number denotes -/

/-- The extended real number that a floating-point number denotes, if it is one. -/
noncomputable def number? : Binary f → Option EReal
  | nan => none
  | num s r =>
    if r.val = f.top then some (if s then ⊥ else ⊤)
    else some ((num s r : Binary f).value : ℝ)

theorem le_of_equals {x y : Binary f} (h : x.equals y = true) : x ≤ y := by
  cases x with
  | nan => cases h
  | num s r =>
    cases y with
    | nan => cases h
    | num t q => exact num_le_num_iff.mpr (beq_iff_eq.mp h).le

theorem equals_iff_value_eq {x y : Binary f} (hx : x.isNaN = false) (hy : y.isNaN = false) :
    x.equals y = true ↔ x.value = y.value := by
  refine ⟨value_eq_of_equals, fun h => equals_of_le_of_le ?_ ?_⟩
  · exact (value_le_iff hx hy).mp h.le
  · exact (value_le_iff hy hx).mp h.ge

/-- Two numbers of one format are equal if they denote the same. -/
theorem equals_iff {x y : Binary f} :
    x.equals y = true ↔ x.isNaN = false ∧ x.number? = y.number? := by
  cases x with
  | nan => simp [equals, isNaN]
  | num s r =>
    cases y with
    | nan =>
      simp only [equals, number?]
      split <;> simp
    | num t q =>
      have hvalue := equals_iff_value_eq (x := num s r) (y := num t q) rfl rfl
      have htop := f.top_ne_zero
      have hlt := r.isLt
      have hlt' := q.isLt
      by_cases hfinite : r.val ≠ f.top ∧ q.val ≠ f.top
      · rw [hvalue]
        simp [number?, isNaN, hfinite]
      -- The top of the ladder is the place of infinity alone, so the places and signs decide.
      · by_cases hr : r.val = f.top <;> by_cases hq : q.val = f.top <;> cases s <;> cases t <;>
          simp [equals, number?, isNaN, position, hr, hq] at hfinite ⊢ <;> omega

theorem equals_trans {x y z : Binary f} (hxy : x.equals y = true) (hyz : y.equals z = true) :
    x.equals z = true := by
  rw [equals_iff] at hxy hyz ⊢
  exact ⟨hxy.1, hxy.2.trans hyz.2⟩

/-- Equal numbers are rounded to equal numbers. -/
theorem equals_cast {x y : Binary f} (h : x.equals y = true) :
    (x.cast g).equals (y.cast g) = true :=
  equals_of_le_of_le (cast_le_cast (le_of_equals h))
    (cast_le_cast (le_of_equals ((equals_comm y x).trans h)))

theorem Same.number?_eq {x : Binary f} {y : Binary g} (hxy : x.Same y) : x.number? = y.number? := by
  cases x with
  | nan =>
    cases y with
    | nan => rfl
    | num => cases hxy
  | num s r =>
    cases y with
    | nan => cases hxy
    | num t q =>
      obtain ⟨rfl, htop, hvalue⟩ := hxy
      by_cases hr : r.val = f.top
      · simp [number?, hr, htop.mp hr]
      · have hq : q.val ≠ g.top := mt htop.mpr hr
        simp [number?, hr, hq, hvalue hr]

/-- One number in two formats is rounded to one number. -/
theorem Same.cast_congr {x : Binary f} {y : Binary g} (hxy : x.Same y) : x.cast h = y.cast h := by
  cases x with
  | nan =>
    cases y with
    | nan => rfl
    | num => cases hxy
  | num s r =>
    cases y with
    | nan => cases hxy
    | num t q =>
      obtain ⟨rfl, htop, hvalue⟩ := hxy
      rw [cast_num, cast_num]
      refine congrArg (num s) (Fin.ext ?_)
      by_cases hr : r.val = f.top
      · rw [castRung, castRung, if_pos hr, if_pos (htop.mp hr)]
      · have hunits := value_eq_iff.mp (hvalue hr)
        have hnum : f.units r.val * h.one * g.one = g.units q.val * h.one * f.one := by
          rw [Nat.mul_right_comm, hunits, Nat.mul_right_comm]
        rw [castRung, castRung, if_neg hr, if_neg (mt htop.mpr hr)]
        calc (h.nearest (f.units r.val * h.one) f.one).val
            = (h.nearest (f.units r.val * h.one * g.one) (f.one * g.one)).val := by
              rw [h.nearest_mul _ _ _ g.one_pos]
          _ = (h.nearest (g.units q.val * h.one * f.one) (g.one * f.one)).val := by
              rw [hnum, Nat.mul_comm f.one]
          _ = (h.nearest (g.units q.val * h.one) g.one).val := by
              rw [h.nearest_mul _ _ _ f.one_pos]

/-- Every number is one of 80 bits. -/
theorem same_cast_extended (x : Binary f) : x.Same (x.cast .extended) := by
  cases f with
  | single => exact same_cast ⟨by decide, by decide, by decide +kernel⟩ x
  | double => exact same_cast FloatFormat.double_wider x
  | extended =>
    rw [cast_self]
    exact .refl x

end Binary

namespace Parameter

variable {p q r : Parameter}

/-! ## Parameters -/

def isNaN : Parameter → Bool
  | real x => x.isNaN
  | fixed _ x => x.isNaN

/-- The extended real number that a parameter denotes, if it is one. -/
noncomputable def number? : Parameter → Option EReal
  | real x => x.number?
  | fixed _ x => x.number?

/-- The parameter with 80 bits, which all of them have room in. -/
def widest : Parameter → Binary .extended
  | real x => x.cast .extended
  | fixed _ x => x.cast .extended

def narrowed (p : Parameter) : Binary .single := p.widest.cast .single

/-- A number without a width meets one of 32 bits. -/
def Mixed : Parameter → Parameter → Prop
  | real _, fixed .single _ | fixed .single _, real _ => True
  | _, _ => False

/-- Some number of 32 bits denotes the same. -/
def HasSingle (p : Parameter) : Prop := ∃ x : Binary .single, x.number? = p.number?

/-- A number without a width meets one of 32 bits, which do not hold it. -/
def Lossy (p q : Parameter) : Prop := p.Mixed q ∧ ¬ (p.HasSingle ∧ q.HasSingle)

theorem number?_widest (p : Parameter) : p.widest.number? = p.number? := by
  cases p <;> exact (Binary.same_cast_extended _).number?_eq.symm

theorem isNaN_widest (p : Parameter) : p.widest.isNaN = p.isNaN := by
  cases p <;> exact Binary.isNaN_cast _

theorem narrowed_real (x : Double) : (real x).narrowed = x.cast .single :=
  (Binary.same_cast_extended x).cast_congr.symm

theorem narrowed_single (x : Binary .single) : (fixed .single x).narrowed = x :=
  (Binary.same_cast_extended x).symm.cast_eq

theorem Mixed.symm (h : p.Mixed q) : q.Mixed p := by
  unfold Mixed at h
  split at h
  · trivial
  · trivial
  · cases h

/-- Two parameters are compared with 80 bits, except where a number without a width meets one of 32
bits: then both are rounded to 32 bits. -/
theorem equals_eq_of_mixed (h : p.Mixed q) : p.equals q = p.narrowed.equals q.narrowed := by
  unfold Mixed at h
  split at h
  · rw [narrowed_real, narrowed_single, equals]
  · rw [narrowed_real, narrowed_single, equals]
  · cases h

theorem equals_eq_of_not_mixed (h : ¬ p.Mixed q) : p.equals q = p.widest.equals q.widest := by
  cases p with
  | real x =>
    cases q with
    | real y => exact (Binary.equals_widen x y).symm
    | fixed g y =>
      cases g with
      | single => exact absurd trivial h
      | double =>
        rw [equals, Binary.cast_self]
        exact (Binary.equals_widen x y).symm
      | extended => rw [equals, widest, widest, Binary.cast_self y]
  | fixed f x =>
    cases q with
    | real y =>
      cases f with
      | single => exact absurd trivial h
      | double =>
        rw [equals, Binary.cast_self]
        exact (Binary.equals_widen x y).symm
      | extended => rw [equals, widest, widest, Binary.cast_self x]
    | fixed g y => rfl

theorem isNaN_narrowed (p : Parameter) : p.narrowed.isNaN = p.isNaN :=
  (Binary.isNaN_cast _).trans p.isNaN_widest

/-- Equal parameters are equal when they are rounded to 32 bits. -/
theorem narrowed_equals (h : p.equals q = true) : p.narrowed.equals q.narrowed = true := by
  by_cases hmixed : p.Mixed q
  · rwa [equals_eq_of_mixed hmixed] at h
  · rw [equals_eq_of_not_mixed hmixed] at h
    exact Binary.equals_cast h

theorem isNaN_of_equals (h : p.equals q = true) : p.isNaN = false :=
  p.isNaN_narrowed.symm.trans (Binary.equals_iff.mp (narrowed_equals h)).1

/-- Parameters that are compared with 80 bits are equal if they denote the same. -/
theorem equals_iff_of_not_mixed (h : ¬ p.Mixed q) :
    p.equals q = true ↔ p.isNaN = false ∧ p.number? = q.number? := by
  rw [equals_eq_of_not_mixed h, Binary.equals_iff, isNaN_widest, number?_widest, number?_widest]

/-- Parameters that denote the same are equal, rounded or not. -/
theorem equals_of_number?_eq (hp : p.isNaN = false) (h : p.number? = q.number?) :
    p.equals q = true := by
  by_cases hmixed : p.Mixed q
  · rw [equals_eq_of_mixed hmixed]
    refine Binary.equals_cast (Binary.equals_iff.mpr ⟨p.isNaN_widest.trans hp, ?_⟩)
    rw [number?_widest, number?_widest, h]
  · exact (equals_iff_of_not_mixed hmixed).mpr ⟨hp, h⟩

theorem equals_comm (p q : Parameter) : p.equals q = q.equals p := by
  by_cases hmixed : p.Mixed q
  · rw [equals_eq_of_mixed hmixed, equals_eq_of_mixed hmixed.symm, Binary.equals_comm]
  · rw [equals_eq_of_not_mixed hmixed, equals_eq_of_not_mixed (mt Mixed.symm hmixed),
      Binary.equals_comm]

/-- A number that 32 bits hold is not changed when it is rounded to them. -/
theorem HasSingle.number?_narrowed (h : p.HasSingle) (hp : p.isNaN = false) :
    p.narrowed.number? = p.number? := by
  obtain ⟨x, hx⟩ := h
  have hequal : p.equals (fixed .single x) = true := equals_of_number?_eq hp hx.symm
  have hnarrowed := (Binary.equals_iff.mp (narrowed_equals hequal)).2
  rw [hnarrowed, narrowed_single, hx]

/-- Equal parameters denote the same, unless one of them has been rounded to equal the other. -/
theorem number?_eq_iff_not_lossy (h : p.equals q = true) :
    p.number? = q.number? ↔ ¬ p.Lossy q := by
  constructor
  · rintro hnumber ⟨hmixed, hsingle⟩
    unfold Mixed at hmixed
    split at hmixed
    · next x y => exact hsingle ⟨⟨y, hnumber.symm⟩, y, rfl⟩
    · next y x => exact hsingle ⟨⟨y, rfl⟩, y, hnumber⟩
    · cases hmixed
  · intro hlossy
    by_cases hmixed : p.Mixed q
    · obtain ⟨hp, hq⟩ := not_not.mp (not_and.mp hlossy hmixed)
      have hnan : q.isNaN = false := isNaN_of_equals ((equals_comm q p).trans h)
      rw [← hp.number?_narrowed (isNaN_of_equals h), ← hq.number?_narrowed hnan]
      exact (Binary.equals_iff.mp (narrowed_equals h)).2
    · exact ((equals_iff_of_not_mixed hmixed).mp h).2

/-- Two parameters that equal a third one are equal if they denote the same, and also if they are
rounded to be compared. -/
theorem equals_iff_of_equals (h : p.equals q = true) (h' : q.equals r = true) :
    p.equals r = true ↔ p.Mixed r ∨ p.number? = r.number? := by
  constructor
  · intro hequal
    by_cases hmixed : p.Mixed r
    · exact .inl hmixed
    · exact .inr ((equals_iff_of_not_mixed hmixed).mp hequal).2
  · rintro (hmixed | hnumber)
    · rw [equals_eq_of_mixed hmixed]
      exact Binary.equals_trans (narrowed_equals h) (narrowed_equals h')
    · exact equals_of_number?_eq (isNaN_of_equals h) hnumber

end Parameter

namespace Event

/-! ## Events -/

/-- Equality of events, given for which of them the parameter is one and the same object. -/
def Equal (identical : Event → Event → Bool) (a b : Event) : Prop :=
  a.equals (identical a b) b = true

instance (identical : Event → Event → Bool) (a b : Event) : Decidable (Equal identical a b) :=
  inferInstanceAs (Decidable (_ = true))

variable {identical : Event → Event → Bool} {a b c : Event}

/-- Whether the parameters are one object does not matter where they are numbers. -/
theorem equal_iff (hidentical : ∀ a b, identical a b = true → a.L = b.L)
    (ha : a.L.isNaN = false) :
    Equal identical a b ↔ a.fromStatus = b.fromStatus ∧ a.toStatus = b.toStatus ∧ a.id = b.id ∧
      a.L.equals b.L = true := by
  have hself : identical a b = true → a.L.equals b.L = true := fun h =>
    hidentical a b h ▸ Parameter.equals_of_number?_eq ha rfl
  simp only [Equal, equals, Bool.and_eq_true, Bool.or_eq_true, beq_iff_eq, or_iff_right_of_imp hself,
    and_assoc]

/-- Equality of events whose parameters are numbers is reflexive and symmetric. Equal events have
parameters that denote the same, unless a number without a width that 32 bits do not hold meets one
of 32 bits, and then they do not. Two events that equal a third one are equal if their parameters
denote the same or are a number without a width and one of 32 bits, and only then; so that equality
is transitive where no number is rounded. -/
theorem equal_laws (hidentical : ∀ a b, identical a b = true → a.L = b.L)
    (ha : a.L.isNaN = false) (hb : b.L.isNaN = false) :
    Equal identical a a ∧ (Equal identical a b ↔ Equal identical b a) ∧
      (Equal identical a b → (a.L.number? = b.L.number? ↔ ¬ a.L.Lossy b.L)) ∧
      (Equal identical a b → Equal identical b c →
        (Equal identical a c ↔ a.L.Mixed c.L ∨ a.L.number? = c.L.number?) ∧
        (¬ a.L.Lossy b.L → ¬ b.L.Lossy c.L → Equal identical a c)) := by
  rw [equal_iff hidentical ha, equal_iff hidentical ha, equal_iff hidentical hb,
    equal_iff hidentical hb, equal_iff hidentical ha, Parameter.equals_comm b.L a.L]
  refine ⟨⟨rfl, rfl, rfl, Parameter.equals_of_number?_eq ha rfl⟩, ?_, ?_, ?_⟩
  · rw [@eq_comm _ a.fromStatus, @eq_comm _ a.toStatus, @eq_comm _ a.id]
  · rintro ⟨-, -, -, hL⟩
    exact Parameter.number?_eq_iff_not_lossy hL
  · rintro ⟨hfrom, hto, hid, hL⟩ ⟨hfrom', hto', hid', hL'⟩
    have hiff := Parameter.equals_iff_of_equals hL hL'
    have hequal : (a.fromStatus = c.fromStatus ∧ a.toStatus = c.toStatus ∧ a.id = c.id ∧
        a.L.equals c.L = true) ↔ a.L.equals c.L = true :=
      ⟨fun h => h.2.2.2, fun h => ⟨hfrom.trans hfrom', hto.trans hto', hid.trans hid', h⟩⟩
    rw [hequal, hiff]
    refine ⟨Iff.rfl, fun hlossy hlossy' => .inr ?_⟩
    exact ((Parameter.number?_eq_iff_not_lossy hL).mpr hlossy).trans
      ((Parameter.number?_eq_iff_not_lossy hL').mpr hlossy')

/-- A variable that reaches its upper bound at a value of the parameter. -/
def reaching (L : Parameter) : Event := ⟨.inside, .upper, 3, L⟩

/-- One half with 80 bits, without a width and with 32 bits. -/
theorem equal_laws_half :
    let identical : Event → Event → Bool := fun _ _ => false
    let a := reaching (.fixed .extended (.twoPowNeg .extended 1))
    let b := reaching (.real (.twoPowNeg .double 1))
    let c := reaching (.fixed .single (.twoPowNeg .single 1))
    Equal identical a a ∧ Equal identical a b ∧ Equal identical b a ∧ Equal identical b c ∧
      b.L.Mixed c.L ∧ b.L.number? = c.L.number? ∧ a.L.number? = b.L.number? ∧
      Equal identical a c := by
  intro identical a b c
  have hab : Equal identical a b := by decide +kernel
  have hbc : Equal identical b c := by decide +kernel
  have hwiden : (Binary.twoPowNeg .single 1).cast .double = .twoPowNeg .double 1 := by
    decide +kernel
  have hsame : (Binary.twoPowNeg .double 1).Same (.twoPowNeg .single 1) :=
    (hwiden ▸ Binary.same_cast FloatFormat.single_wider (.twoPowNeg .single 1)).symm
  have hidentical : ∀ a b, identical a b = true → a.L = b.L := fun _ _ h => nomatch h
  obtain ⟨hself, hsymm, hnumber, htrans⟩ :=
    equal_laws (a := a) (b := b) (c := c) hidentical (by decide) (by decide)
  have hexact : b.L.number? = c.L.number? := hsame.number?_eq
  have hab' : ¬ a.L.Lossy b.L := fun h => h.1
  have hsingle : c.L.HasSingle := ⟨.twoPowNeg .single 1, rfl⟩
  have hbc' : ¬ b.L.Lossy c.L := fun h => h.2 ⟨⟨.twoPowNeg .single 1, hexact.symm⟩, hsingle⟩
  exact ⟨hself, hab, hsymm.mp hab, hbc, trivial, hexact, (hnumber hab).mpr hab',
    (htrans hab hbc).2 hab' hbc'⟩

/-- One tenth with 64 bits equals one tenth without a width, and that equals one tenth with 32 bits,
although the latter is another number; and the first and the last are not equal. -/
theorem equal_not_transitive :
    let tenth : Double := .ofDecimal .double false 1 (-1)
    let a := reaching (.fixed .double tenth)
    let b := reaching (.real tenth)
    let c := reaching (.fixed .single (.ofDecimal .single false 1 (-1)))
    a.L.isNaN = false ∧ b.L.isNaN = false ∧ c.L.isNaN = false ∧
      a.equals false b = true ∧ b.equals false c = true ∧ a.equals false c = false ∧
      b.L.number? ≠ c.L.number? := by
  intro tenth a b c
  have hac : a.equals false c = false := by decide +kernel
  refine ⟨by decide, by decide, by decide, by decide +kernel, by decide +kernel, hac, fun h => ?_⟩
  have hL : a.L.equals c.L = true := Parameter.equals_of_number?_eq (by decide) h
  let distinct : Event → Event → Bool := fun _ _ => false
  have hdistinct : ∀ a b, distinct a b = true → a.L = b.L := fun _ _ h => nomatch h
  have hequal : a.equals false c = true :=
    (equal_iff hdistinct (by decide)).mpr ⟨rfl, rfl, rfl, hL⟩
  rw [hac] at hequal
  cases hequal

end Event

end StandardForm
