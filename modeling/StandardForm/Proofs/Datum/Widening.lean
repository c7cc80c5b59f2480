import Mathlib.Data.Option.Basic
import StandardForm.Proofs.Binary.Widening
import StandardForm.Proofs.Datum.Filled

/-!
# Data converted to both formats

A datum whose numbers are all 64-bit numbers is converted to the extended format by widening its
conversion to 64 bits: every entry is the same number in both, and where one conversion fails, so
does the other. There is one exception. An array takes twice as many bytes in the extended format,
so one that has no room there can be refused although it is small enough for 64-bit numbers.
-/

namespace StandardForm

/-! ## Steps in both formats -/

section Steps

variable {α β γ δ : Type}

/-- A step in the extended format gives what `widen` makes of the result in the double format, or
fails as it does there. Without room it may instead fail because an array is too large. -/
def Widens (room : Prop) (widen : α → β) (x : Except Fault α) (y : Except Fault β) : Prop :=
  y = x.map widen ∨ ¬ room ∧ y = .error .malformed

namespace Widens

variable {room : Prop} {w : α → β} {x : Except Fault α} {y : Except Fault β}

theorem of_eq (h : y = x.map w) : Widens room w x y := .inl h

theorem ok (a : α) : Widens room w (.ok a) (.ok (w a)) := .inl rfl

/-- With room the results correspond to each other. -/
theorem eq (h : Widens room w x y) (hroom : room) : y = x.map w :=
  h.resolve_right fun hno => hno.1 hroom

/-- A step that succeeds in the extended format succeeds in the double format. -/
theorem exists_of_ok {b : β} (h : Widens room w x y) (hy : y = .ok b) :
    ∃ a, x = .ok a ∧ w a = b := by
  rcases h with h | ⟨-, h⟩
  · exact map_eq_ok.mp (h.symm.trans hy)
  · cases h.symm.trans hy

/-- Steps that correspond to each other, one after the other. -/
theorem bind {w' : γ → δ} {g : α → Except Fault γ} {k : β → Except Fault δ}
    (h : Widens room w x y) (hg : ∀ a, x = .ok a → Widens room w' (g a) (k (w a))) :
    Widens room w' (x >>= g) (y >>= k) := by
  rcases h with rfl | ⟨hroom, rfl⟩
  · cases x with
    | error e => exact .inl rfl
    | ok a => exact hg a rfl
  · exact .inr ⟨hroom, rfl⟩

/-- A step that has nothing to do with formats, and what follows it. -/
theorem bind_same {w' : γ → δ} {x : Except Fault α} {g : α → Except Fault γ}
    {k : α → Except Fault δ} (hg : ∀ a, x = .ok a → Widens room w' (g a) (k a)) :
    Widens room w' (x >>= g) (x >>= k) := by
  cases x with
  | error e => exact .inl rfl
  | ok a => exact hg a rfl

end Widens

end Steps

/-! ## Single values -/

namespace Scalar

/-- A value is the same number in the double and in the extended format, if it is a number. -/
def Exact : Scalar → Prop
  | absent | truth _ | real _ | member _ => True
  | integer n | word n => ∃ x : Double, x.Represents n
  | fixed _ x => ∃ y : Double, x.Same y
  | text s => Option.Rel Binary.Same (readText .double s) (readText .extended s)

theorem toBinary_extended {s : Scalar} (h : s.Exact) :
    s.toBinary .extended = (s.toBinary .double).map Binary.widen := by
  cases s with
  | absent => rfl
  | member m => rfl
  | truth b =>
    have hbit : ∃ x : Double, x.Represents ((b.toNat : ℤ) : ℚ) := by
      cases b
      · exact ⟨.ofInt .double 0, by decide +kernel⟩
      · exact ⟨.ofInt .double 1, by decide +kernel⟩
    obtain ⟨x, hx⟩ := hbit
    exact congrArg Except.ok (Binary.ofInt_extended hx)
  | integer n =>
    obtain ⟨x, hx⟩ := h
    change ofInteger .extended n = (ofInteger .double n).map Binary.widen
    simp only [ofInteger, Binary.ofInt_extended hx, Binary.isInfinite_widen]
    split <;> rfl
  | word n =>
    obtain ⟨x, hx⟩ := h
    exact congrArg Except.ok (Binary.ofInt_extended hx)
  | real x => exact congrArg Except.ok (by rw [Binary.cast_self]; rfl)
  | fixed f x =>
    obtain ⟨y, hy⟩ := h
    have hwiden : x.cast .extended = Binary.widen y := (hy.trans (Binary.same_widen y)).cast_eq
    exact congrArg Except.ok (by rw [hwiden, hy.cast_eq])
  | text s =>
    have h : Option.Rel Binary.Same (readText .double s) (readText .extended s) := h
    rw [toBinary, toBinary]
    generalize readText .double s = x at h ⊢
    generalize readText .extended s = y at h ⊢
    cases h with
    | none => rfl
    | some hsame => exact congrArg Except.ok hsame.eq_widen

end Scalar

/-! ## Arrays -/

namespace Tensor

variable {α β γ ε : Type}

theorem traverseList_map_ok {g : α → Except ε β} {k : α → Except ε γ} {w : β → γ} {as : List α}
    (h : ∀ a ∈ as, k a = (g a).map w) :
    traverseList k as =
      (traverseList g as).map fun bs => ⟨bs.1.map w, by rw [List.length_map, bs.2]⟩ := by
  induction as with
  | nil => rfl
  | cons a as ih =>
    rw [List.forall_mem_cons] at h
    rw [traverseList, traverseList, h.1, ih h.2]
    cases g a with
    | error e => rfl
    | ok b => cases traverseList g as <;> rfl

/-- Where a function only changes the results, it changes the entries of the result. -/
theorem traverse_map_ok {g : α → Except ε β} {k : α → Except ε γ} {w : β → γ} {t : Tensor α}
    (h : ∀ a ∈ t.entries, k a = (g a).map w) : t.traverse k = (t.traverse g).map (·.map w) := by
  rw [traverse, traverse, traverseList_map_ok h]
  cases traverseList g t.entries <;> rfl

theorem flattenColumn_map (w : α → β) (t : Tensor α) :
    (t.map w).flattenColumn = t.flattenColumn.map w := by
  unfold flattenColumn
  split
  · next m h =>
    have h' : t.shape = [m, 1] := h
    split
    · next m' h'' =>
      obtain rfl : m = m' := by simpa [h'] using h''
      rfl
    · next hne => exact absurd h' (hne m)
  · next hne =>
    split
    · next m h => exact absurd h (hne m)
    · rfl

theorem require_map (w : α → β) (name : String) (expected : List Datum) (t : Tensor α) :
    (t.map w).require name expected =
      (t.require name expected).map fun v => ⟨v.1.map w, v.2⟩ := by
  rw [require, require]
  change (requireShape name expected t.shape >>= _) = _
  cases requireShape name expected t.shape <;> rfl

end Tensor

def Shaped.widen {shape : List ℕ} (v : Shaped Double shape) : Shaped (Binary .extended) shape :=
  ⟨v.1.map Binary.widen, v.2⟩

theorem requireSize_widens {room : Prop} {shape : List ℕ} (h : room → Storable .extended shape) :
    Widens room id (Datum.requireSize .double shape) (Datum.requireSize .extended shape) := by
  by_cases hstorable : Storable .extended shape
  · have hdouble : Storable .double shape := Storable.double (p := .extended) hstorable
    rw [requireSize_eq_ok.mpr hstorable, requireSize_eq_ok.mpr hdouble]
    exact .ok ()
  · refine .inr ⟨fun hroom => hstorable (h hroom), ?_⟩
    rw [Storable, Nat.not_le] at hstorable
    exact if_pos hstorable

namespace Datum

variable {room : Prop} {d n : Datum}

/-- All entries of a datum are 64-bit numbers. -/
def Exact (d : Datum) : Prop := ∀ t, d.elements = .ok t → ∀ s ∈ t.entries, s.Exact

/-- A datum is small enough for the extended format. -/
def Roomy (d : Datum) : Prop := ∀ t, d.elements = .ok t → Storable .extended t.shape

/-- What is filled to a dimension is small enough for the extended format. -/
def RoomyCount (n : Datum) : Prop :=
  (∀ shape, n.toShape = .ok shape → Storable .extended shape) ∧
    ∀ rows shape, rows ≤ 1 → n.toRowsShape rows = .ok shape → Storable .extended shape

/-- All entries of a datum are 64-bit numbers, and with room it is small enough. -/
def Widenable (room : Prop) (d : Datum) : Prop := d.Exact ∧ (room → d.Roomy)

theorem eq_of_elements_ofTensor {f : FloatFormat} {t : Tensor (Binary f)} {e : Tensor Scalar}
    (h : (ofTensor t).elements = .ok e) : e = t.map (Scalar.fixed f) := by
  by_cases haxes : t.shape.length ≤ maxAxes
  · exact Except.ok.inj (h.symm.trans (elements_ofTensor haxes))
  · have herror : (ofTensor t).elements = .error .malformed := if_pos (Nat.not_le.mp haxes)
    cases herror.symm.trans h

/-- A stored array of 64-bit numbers holds 64-bit numbers. -/
theorem exact_ofTensor (t : Tensor Double) : (ofTensor t).Exact := by
  intro e he s hs
  rw [eq_of_elements_ofTensor he] at hs
  obtain ⟨x, -, rfl⟩ := List.mem_map.mp hs
  exact ⟨x, .refl x⟩

theorem roomy_ofTensor {t : Tensor Double} (h : Storable .extended t.shape) :
    (ofTensor t).Roomy := by
  intro e he
  rw [eq_of_elements_ofTensor he]
  exact h

theorem roomyCount_natural {k : ℕ} (h : Storable .extended [k]) : (integer k).RoomyCount := by
  refine ⟨fun shape hshape => ?_, fun rows shape hrows hshape => ?_⟩
  · cases (toShape_natural (p := .extended) h).symm.trans hshape
    exact h
  · cases (toRowsShape_natural (p := .extended) hrows h).symm.trans hshape
    rcases Nat.le_one_iff_eq_zero_or_eq_one.mp hrows with rfl | rfl
    · exact storable_noRows_iff.mpr h
    · exact storable_oneRow_iff.mpr h

theorem toTensor_widens (h : d.Widenable room) :
    Widens room (Tensor.map Binary.widen) (d.toTensor .double) (d.toTensor .extended) :=
  .bind_same fun t ht => (requireSize_widens fun hroom => h.2 hroom t ht).bind fun _ _ =>
    .of_eq (Tensor.traverse_map_ok fun s hs => Scalar.toBinary_extended (h.1 t ht s hs))

theorem toVector_widens (h : d.Widenable room) (name : String) :
    Widens room Shaped.widen (d.toVector .double name n) (d.toVector .extended name n) := by
  refine (toTensor_widens h).bind fun t _ => .of_eq ?_
  rw [Tensor.flattenColumn_map]
  exact Tensor.require_map _ _ _ _

theorem toMatrix_widens (h : d.Widenable room) (hn : room → n.RoomyCount) (name : String)
    (rows : Datum) :
    Widens room Shaped.widen (d.toMatrix .double name rows n)
      (d.toMatrix .extended name rows n) := by
  refine (toTensor_widens h).bind fun t _ => ?_
  have hrequire (t : Tensor Double) : Widens room Shaped.widen (t.require name [rows, n])
      ((t.map Binary.widen).require name [rows, n]) :=
    .of_eq (Tensor.require_map _ _ _ _)
  rw [Tensor.shape_map]
  split
  · refine .bind_same fun k _ => ?_
    split
    · refine .bind_same fun c hc => .bind_same fun shape hshape => ?_
      have hrows : n.toRowsShape 0 = .ok shape := by
        rw [toRowsShape, hc]
        exact hshape
      refine (requireSize_widens fun hroom => ?_).bind fun _ _ => hrequire _
      exact (hn hroom).2 0 shape (Nat.zero_le 1) hrows
    · exact hrequire t
  · exact hrequire t

end Datum

namespace Source

variable {room : Prop} {s : Source} {n : Datum}

/-- A given array can be widened, and with room what is filled is small enough. -/
def Widenable (room : Prop) : Source → Prop
  | given d => d.Widenable room
  | filled shape _ => room → Storable .extended shape

theorem fillTo_widens {shape : List ℕ} (hroom : room → Storable .extended shape) (name : String)
    (x : Double) (expected : List Datum) :
    Widens room Shaped.widen (fillTo .double name shape x expected)
      (fillTo .extended name shape x expected) := by
  refine (requireSize_widens hroom).bind fun _ _ => .bind_same fun hshape _ => .of_eq ?_
  have hfill : Tensor.fill shape (x.cast .extended) =
      (Tensor.fill shape (x.cast .double)).map Binary.widen := by
    refine Tensor.ext rfl ?_
    simp [Tensor.fill, Binary.widen]
  exact congrArg Except.ok (Subtype.ext hfill)

theorem toVector_widens (h : s.Widenable room) (name : String) :
    Widens room Shaped.widen (s.toVector .double name n) (s.toVector .extended name n) := by
  cases s with
  | given d => exact Datum.toVector_widens h name
  | filled shape x => exact fillTo_widens h name x [n]

theorem toMatrix_widens (h : s.Widenable room) (hn : room → n.RoomyCount) (name : String)
    (rows : Datum) :
    Widens room Shaped.widen (s.toMatrix .double name rows n)
      (s.toMatrix .extended name rows n) := by
  cases s with
  | given d => exact Datum.toMatrix_widens h hn name rows
  | filled shape x => exact fillTo_widens h name x [rows, n]

theorem widenable_of_vector {d : Option Datum} {x : Double} (h : ∀ a ∈ d, a.Widenable room)
    (hn : room → n.RoomyCount) (hs : vector d n x = .ok s) : s.Widenable room := by
  cases d with
  | some d =>
    cases hs
    exact h d rfl
  | none =>
    obtain ⟨shape, hshape, rfl⟩ := map_eq_ok.mp hs
    exact fun hroom => (hn hroom).1 shape hshape

theorem widenable_of_matrix {d : Option Datum} {rows : ℕ} {x : Double} (hrows : rows ≤ 1)
    (h : ∀ a ∈ d, a.Widenable room) (hn : room → n.RoomyCount)
    (hs : matrix d rows n x = .ok s) : s.Widenable room := by
  cases d with
  | some d =>
    cases hs
    exact h d rfl
  | none =>
    obtain ⟨shape, hshape, rfl⟩ := map_eq_ok.mp hs
    exact fun hroom => (hn hroom).2 rows shape hrows hshape

end Source

end StandardForm
