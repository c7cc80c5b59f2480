import StandardForm.Proofs.Logging.Reconfiguration

/-!
# Lines of the log

Two things make a line of a record. The levels decide whether it is written, and they do not look
at what it says; the template decides how, and it does not look at the levels of root and handler.
A template that is accepted may still fail to make a line. It makes one of every record if each of
its fields names something that is known of records, with a letter that suits such values.
-/

namespace StandardForm.Logging

/-- How severe a record has to be for the handler, or to be written where there is none. -/
def threshold (l : Logging) : Int :=
  match l.handler with
  | some h => h.level.value
  | none => Level.warning.value

/-- Records of a level get past the root and past the handler. -/
def Passes (l : Logging) (level : Level) : Prop :=
  0 < level.value ∧ l.effectiveLevel.value ≤ level.value ∧ l.threshold ≤ level.value

instance (l : Logging) (level : Level) : Decidable (l.Passes level) :=
  inferInstanceAs (Decidable (_ ∧ _))

/-- The line that a record becomes: the template filled in, or without a handler the bare message.
-/
def layOut (l : Logging) (name : String) (level : Level) (message : String) : Option String :=
  match l.handler with
  | some h => fill (fields (l.origin name level message) name level message) h.template
  | none => some message

theorem written_eq (l : Logging) (name : String) (level : Level) (message : String) :
    l.written name level message =
      if l.Passes level then l.layOut name level message else none := by
  by_cases hroot : level.value ≤ 0 ∨ level.value < l.effectiveLevel.value
  · have hfails : ¬ l.Passes level := by
      rintro ⟨hpos, hle, -⟩
      omega
    rw [written, if_pos hroot, if_neg hfails]
  · have hpasses : l.Passes level ↔ ¬ level.value < l.threshold := by
      simp only [Passes]
      omega
    rw [written, if_neg hroot]
    simp only [hpasses, threshold, layOut]
    cases l.handler <;> simp only [ite_not]

theorem toList_written (l : Logging) (name : String) (level : Level) (message : String) :
    (l.written name level message).toList =
      if l.Passes level then (l.layOut name level message).toList else [] := by
  rw [written_eq]
  split <;> rfl

/-! ## Templates that make a line of every record -/

/-- What kind of value a field has. -/
inductive FieldKind
  | text
  | integer
  | real
  | object

def FieldValue.kind : FieldValue → FieldKind
  | text _ => .text
  | level _ | integer _ => .integer
  | real _ => .real
  | object _ => .object

/-- The letters that suit every value of a kind. -/
def FieldKind.letters : FieldKind → List Char
  | text | object => ['s', 'r', 'a']
  | integer => ['s', 'r', 'a', 'd', 'i', 'u', 'o', 'x', 'X']
  | real => ['s', 'r', 'a', 'd', 'i', 'u', 'f', 'F', 'e', 'E', 'g', 'G']

/-- The kinds of all fields, which are the same for every record. -/
def kinds : List (String × FieldKind) :=
  (fields .unknown "" .unset "").map fun (name, value) => (name, value.kind)

/-- The letter of a part suits whatever value the part has. -/
def Piece.Suits : Piece → Prop
  | plain _ => True
  | field name _ letter => ∃ kind ∈ kinds.lookup name, letter ∈ kind.letters
  | record _ letter => letter ∈ FieldKind.object.letters

instance : DecidablePred Piece.Suits
  | .plain _ => inferInstanceAs (Decidable True)
  | .field name _ letter =>
    inferInstanceAs (Decidable (∃ kind ∈ kinds.lookup name, letter ∈ kind.letters))
  | .record _ letter => inferInstanceAs (Decidable (letter ∈ FieldKind.object.letters))

/-- All fields of the template are complete and known, and their letters suit them. -/
def Fillable (template : String) : Prop :=
  ∃ pieces ∈ pieces? template, ∀ piece ∈ pieces, Piece.Suits piece

instance (template : String) : Decidable (Fillable template) :=
  inferInstanceAs (Decidable (∃ pieces ∈ pieces? template, ∀ piece ∈ pieces, Piece.Suits piece))

theorem fillable_standardTemplate : Fillable standardTemplate := by decide +kernel

theorem isSome_writeFraction? (c : Conversion) (write : Nat → Nat → String) (x : FiniteDouble) :
    (c.writeFraction? write x.1).isSome = true := by
  obtain ⟨_ | ⟨s, r⟩, hx⟩ := x
  · cases hx
  · have hr : r.val ≠ FloatFormat.double.top := bne_iff_ne.mp hx
    simp [Conversion.writeFraction?, hr]

theorem isSome_truncate? (x : FiniteDouble) : x.1.truncate?.isSome = true := by
  obtain ⟨_ | ⟨s, r⟩, hx⟩ := x
  · cases hx
  · have hr : r.val ≠ FloatFormat.double.top := bne_iff_ne.mp hx
    simp [Binary.truncate?, hr]

/-- A letter that suits the kind of a value suits the value. -/
theorem isSome_write? (c : Conversion) (value : FieldValue) :
    ∀ letter ∈ value.kind.letters, (c.write? letter value).isSome = true := by
  cases value with
  | real x =>
    simp [FieldValue.kind, FieldKind.letters, Conversion.write?, Conversion.writeDouble?,
      Conversion.writeReal?, isSome_writeFraction?, isSome_truncate?]
  | text | level | integer | object =>
    simp [FieldValue.kind, FieldKind.letters, Conversion.write?, Conversion.writeText?,
      Conversion.writeInteger?, Conversion.writeObject?]

section Record

variable (origin : Origin) (name : String) (level : Level) (message : String)

theorem lookup_kinds (field : String) :
    kinds.lookup field = ((fields origin name level message).lookup field).map FieldValue.kind := by
  have hkinds : kinds =
      (fields origin name level message).map fun (name, value) => (name, value.kind) := rfl
  rw [hkinds]
  induction fields origin name level message with
  | nil => rfl
  | cons entry fs ih =>
    rw [List.map_cons, List.lookup_cons, List.lookup_cons, ih]
    cases field == entry.1 <;> rfl

theorem Piece.Suits.isSome_write? {piece : Piece} (h : piece.Suits) (shown : String) :
    (piece.write? (fields origin name level message) (.object shown)).isSome = true := by
  cases piece with
  | plain c => rfl
  | field field c letter =>
    obtain ⟨kind, hkind, hletter⟩ := h
    rw [lookup_kinds origin name level message] at hkind
    obtain ⟨value, hvalue, rfl⟩ := Option.map_eq_some_iff.mp hkind
    rw [write?, hvalue]
    exact Logging.isSome_write? c value letter hletter
  | record c letter => exact Logging.isSome_write? c (.object shown) letter h

theorem isSome_mapM {α β : Type} {g : α → Option β} {as : List α}
    (h : ∀ a ∈ as, (g a).isSome = true) : (as.mapM g).isSome = true := by
  induction as with
  | nil => rfl
  | cons a as ih =>
    rw [List.forall_mem_cons] at h
    obtain ⟨b, hb⟩ := Option.isSome_iff_exists.mp h.1
    obtain ⟨bs, hbs⟩ := Option.isSome_iff_exists.mp (ih h.2)
    simp [List.mapM_cons, hb, hbs]

/-- A fillable template makes a line of every record. -/
theorem Fillable.isSome_fill {template : String} (h : Fillable template) :
    (fill (fields origin name level message) template).isSome = true := by
  obtain ⟨pieces, hpieces, hsuits⟩ := h
  obtain ⟨parts, hparts⟩ := Option.isSome_iff_exists.mp (isSome_mapM fun piece hpiece =>
    (hsuits piece hpiece).isSome_write? origin name level message (displayFields
      (if usesTime template.toList then fields origin name level message
        else (fields origin name level message).filter (·.1 ≠ timeField))))
  rw [fill, hpieces]
  simp only [Option.bind_eq_bind, Option.bind_some, hparts]
  rfl

end Record

/-- The template of the handler, if there is one, makes a line of every record. -/
def MakesLines (l : Logging) : Prop := ∀ h ∈ l.handler, Fillable h.template

theorem MakesLines.isSome_layOut {l : Logging} (h : l.MakesLines) (name : String) (level : Level)
    (message : String) : (l.layOut name level message).isSome = true := by
  rw [layOut]
  cases hl : l.handler with
  | some handler => exact (h handler hl).isSome_fill _ name level message
  | none => rfl

/-- A template that the call installs makes a line of every record. -/
def Call.InstallsFillable : Call → Prop
  | .configure _ template _ => ∀ t, templateOf template = .ok t → Fillable t
  | .lookUp | .setLevel _ => True

theorem MakesLines.lookUp {l : Logging} (h : l.MakesLines) : l.lookUp.MakesLines := by
  cases hl : l.handler with
  | some handler => rwa [lookUp_of_some hl]
  | none =>
    rw [lookUp_of_none hl]
    rintro - ⟨⟩
    exact fillable_standardTemplate

/-- A step: templates that make lines are followed by such templates. -/
theorem MakesLines.apply {l : Logging} (h : l.MakesLines) {call : Call}
    (hcall : call.InstallsFillable) : (call.apply l).2.MakesLines := by
  cases call with
  | lookUp => exact h.lookUp
  | setLevel level =>
    obtain ⟨e, -, hset⟩ | ⟨n, handler, -, hhandler, hset⟩ := setLevel_cases l level
    · rw [Call.apply, hset]
      exact h.lookUp
    · rw [Call.apply, hset]
      rintro - ⟨⟩
      exact h.lookUp handler hhandler
  | configure level template stream =>
    obtain ⟨e, -, hset⟩ | ⟨t, e, ht, -, hset⟩ | ⟨t, n, ht, -, hset⟩ :=
      configureOn_cases l level template stream
    · rw [Call.apply, hset]
      rintro - ⟨⟩
    all_goals
      rw [Call.apply, hset]
      rintro - ⟨⟩
      exact hcall t ht

/-- A run: the same holds after any number of calls. -/
theorem MakesLines.after {l : Logging} (h : l.MakesLines) {calls : List Call}
    (hcalls : ∀ call ∈ calls, call.InstallsFillable) : (l.after calls).MakesLines := by
  induction calls generalizing l with
  | nil => exact h
  | cons call calls ih =>
    rw [List.forall_mem_cons] at hcalls
    exact ih (h.apply hcalls.1) hcalls.2

end StandardForm.Logging
