import Mathlib.Data.List.Basic
import StandardForm.Proofs.Logging.Reconfiguration

/-!
# Levels given by name

A text that is given as a level is upper-cased and looked up among the names of levels. All names
are ASCII, so only those characters matter whose upper-casing lies within ASCII, and few of them are
not ASCII themselves. A text that is no name of a level means warnings. Two exceptions remain: two
names belong to other things that are no levels, and these are refused.
-/

namespace StandardForm

namespace Text

def IsAscii (cs : List Char) : Prop := ∀ c ∈ cs, c.toNat < 128

instance (cs : List Char) : Decidable (IsAscii cs) := List.decidableBAll _ cs

/-- Two ways to write characters in upper case agree wherever one of them stays within ASCII. -/
def AgreeWithinAscii (u v : Char → List Char) : Prop :=
  ∀ c, IsAscii (u c) ∨ IsAscii (v c) → u c = v c

namespace AgreeWithinAscii

variable {u v : Char → List Char} {s name : List Char}

theorem symm (h : AgreeWithinAscii u v) : AgreeWithinAscii v u :=
  fun c hc => (h c hc.symm).symm

theorem flatMap_eq (h : AgreeWithinAscii u v) (hname : IsAscii name)
    (hs : s.flatMap u = name) : s.flatMap v = name := by
  subst hs
  refine List.flatMap_congr fun c hc => (h c (.inl fun d hd => ?_)).symm
  exact hname d (List.mem_flatMap.mpr ⟨c, hc, hd⟩)

/-- An ASCII name does not tell the two apart. -/
theorem flatMap_eq_iff (h : AgreeWithinAscii u v) (hname : IsAscii name) :
    s.flatMap u = name ↔ s.flatMap v = name :=
  ⟨h.flatMap_eq hname, h.symm.flatMap_eq hname⟩

end AgreeWithinAscii

end Text

namespace Logging

/-- The names that are found although they are no names of levels. -/
def otherNames : List String := ["BASIC_FORMAT", "_STYLES"]

/-- A text in upper case, character by character. -/
def upperWith (u : Char → List Char) (s : String) : String := String.ofList (s.toList.flatMap u)

section Names

variable {u : Char → List Char} {name : String} {level : Int}

theorem upperWith_eq_iff (hu : Text.AgreeWithinAscii u Text.upperChar)
    (hname : Text.IsAscii name.toList) (s : String) :
    upperWith u s = name ↔ Text.upper s = name := by
  have h (t : List Char) : String.ofList t = name ↔ t = name.toList := by
    rw [← String.toList_inj, String.toList_ofList]
  rw [upperWith, Text.upper, h, h]
  exact hu.flatMap_eq_iff hname

/-- The names of levels are ASCII, none of them stands for two levels, and none is one of the two
other names. -/
theorem forall_mem_names : ∀ entry ∈ Level.names, Text.IsAscii entry.1.toList ∧
    Level.names.lookup entry.1 = some entry.2 ∧ entry.1 ∉ otherNames := by
  decide +kernel

theorem isAscii_of_mem_otherNames (h : name ∈ otherNames) : Text.IsAscii name.toList := by
  have hall : ∀ other ∈ otherNames, Text.IsAscii other.toList := by decide +kernel
  exact hall _ h

theorem lookup_names : Level.names.lookup name = some level ↔ (name, level) ∈ Level.names := by
  constructor
  · intro h
    obtain ⟨before, after, heq, -⟩ := List.lookup_eq_some_iff.mp h
    rw [heq]
    exact List.mem_append_right before List.mem_cons_self
  · intro h
    exact (forall_mem_names _ h).2.1

/-- A text means the level that its upper-casing is a name of, and otherwise warnings unless its
upper-casing belongs to another thing. -/
theorem levelOf_text (s : String) :
    (∃ level, (Text.upper s, level) ∈ Level.names ∧
        levelOf (.scalar (.text s)) = .ok (.number level)) ∨
      (∀ level, (Text.upper s, level) ∉ Level.names) ∧
        ((Text.upper s ∈ otherNames ∧ ∃ e, levelOf (.scalar (.text s)) = .error e) ∨
          Text.upper s ∉ otherNames ∧ levelOf (.scalar (.text s)) = .ok .warning) := by
  cases h : Level.names.lookup (Text.upper s) with
  | some level => exact .inl ⟨level, lookup_names.mp h, by simp only [levelOf, h]⟩
  | none =>
    refine .inr ⟨fun level hlevel => ?_, ?_⟩
    · cases h.symm.trans (lookup_names.mpr hlevel)
    by_cases hformat : Text.upper s = "BASIC_FORMAT"
    · exact .inl ⟨by simp [otherNames, hformat], .malformed,
        by simp only [levelOf, h, if_pos hformat]⟩
    by_cases hstyles : Text.upper s = "_STYLES"
    · exact .inl ⟨by simp [otherNames, hstyles], .wrongKind, by
        simp only [levelOf, h, if_neg hformat, if_pos hstyles]⟩
    · exact .inr ⟨by simp [otherNames, hformat, hstyles], by
        simp only [levelOf, h, if_neg hformat, if_neg hstyles]⟩

/-- What two data mean alike is set alike. -/
theorem setLevel_congr (l : Logging) {level level' : Datum} (h : levelOf level = levelOf level') :
    l.setLevel level = l.setLevel level' := by
  simp only [setLevel, h]

theorem upperWith_mem_otherNames_iff (hu : Text.AgreeWithinAscii u Text.upperChar) (s : String) :
    upperWith u s ∈ otherNames ↔ Text.upper s ∈ otherNames := by
  constructor
  · intro h
    rwa [(upperWith_eq_iff hu (isAscii_of_mem_otherNames h) s).mp rfl]
  · intro h
    rwa [(upperWith_eq_iff hu (isAscii_of_mem_otherNames h) s).mpr rfl]

theorem upperWith_mem_names_iff (hu : Text.AgreeWithinAscii u Text.upperChar) (s : String) :
    (upperWith u s, level) ∈ Level.names ↔ (Text.upper s, level) ∈ Level.names := by
  constructor
  · intro h
    rwa [(upperWith_eq_iff hu (forall_mem_names _ h).1 s).mp rfl]
  · intro h
    rwa [(upperWith_eq_iff hu (forall_mem_names _ h).1 s).mpr rfl]

end Names

/-- However characters outside ASCII are written in upper case, as long as it is outside ASCII: a
text whose upper-casing is none of the two other names sets a level, whatever the logging was. It
leaves what the number leaves that its upper-casing is a name of, or what the level of warnings
leaves if there is none. With either of the two other names the level is refused and nothing but a
look-up has happened. -/
theorem setLevel_text {u : Char → List Char} (hu : Text.AgreeWithinAscii u Text.upperChar)
    (l : Logging) (s : String) :
    (upperWith u s ∉ otherNames →
      (l.setLevel (.scalar (.text s))).1 = .ok () ∧
      (∀ level : Int, (upperWith u s, level) ∈ Level.names →
        l.setLevel (.scalar (.text s)) = l.setLevel (.integer level)) ∧
      ((∀ level : Int, (upperWith u s, level) ∉ Level.names) →
        l.setLevel (.scalar (.text s)) = l.setLevel (.integer 30))) ∧
    (upperWith u s ∈ otherNames →
      ∃ e, l.setLevel (.scalar (.text s)) = (.error e, l.lookUp)) := by
  simp only [upperWith_mem_otherNames_iff hu, upperWith_mem_names_iff hu]
  have hok {n : Level} (h : levelOf (.scalar (.text s)) = .ok n) :
      (l.setLevel (.scalar (.text s))).1 = .ok () := by
    simp only [setLevel, h]
  obtain ⟨level, hname, hlevel⟩ | ⟨hnone, ⟨hother, e, he⟩ | ⟨hother, hlevel⟩⟩ := levelOf_text s
  · refine ⟨fun _ => ⟨hok hlevel, fun level' hname' => ?_, fun h => absurd hname (h level)⟩,
      fun hother => absurd hother (forall_mem_names _ hname).2.2⟩
    obtain rfl : level = level' :=
      Option.some.inj ((lookup_names.mpr hname).symm.trans (lookup_names.mpr hname'))
    exact setLevel_congr l hlevel
  · exact ⟨fun h => absurd hother h, fun _ => ⟨e, by simp only [setLevel, he]⟩⟩
  · exact ⟨fun _ => ⟨hok hlevel, fun level hname => absurd hname (hnone level),
      fun _ => setLevel_congr l hlevel⟩, fun h => absurd h hother⟩

def upperAccented (c : Char) : List Char := if c = 'é' then ['É'] else Text.upperChar c

theorem agreeWithinAscii_upperAccented : Text.AgreeWithinAscii upperAccented Text.upperChar := by
  intro c hc
  unfold upperAccented at hc ⊢
  split
  · next h =>
    subst h
    exact absurd hc (by decide)
  · rfl

/-- On a root without a handler, a name with a dotless i and a text that is no name. -/
theorem setLevel_text_dotless :
    let l := initial.after [.configure (.integer 10) (.text "hello") .errors]
    l.handler = none ∧
    l.setLevel (.text "ınfo") = l.setLevel (.integer 20) ∧
    l.setLevel (.text "debé") = l.setLevel (.integer 30) := by
  intro l
  obtain ⟨hinfo, -⟩ := setLevel_text agreeWithinAscii_upperAccented l "ınfo"
  obtain ⟨hdebe, -⟩ := setLevel_text agreeWithinAscii_upperAccented l "debé"
  have hupper : upperWith upperAccented "ınfo" = "INFO" := by decide +kernel
  have hupper' : upperWith upperAccented "debé" = "DEBÉ" := by decide +kernel
  rw [hupper] at hinfo
  rw [hupper'] at hdebe
  have hnone : ∀ level : Int, ("DEBÉ", level) ∉ Level.names := fun level => by
    simp [Level.names]
  exact ⟨by decide +kernel, (hinfo (by decide)).2.1 20 (by decide), (hdebe (by decide)).2.2 hnone⟩

/-- The two other names, in any case of letters, are no levels. -/
theorem setLevel_text_refused :
    initial.setLevel (.text "BASIC_FORMAT") = (.error .malformed, initial) ∧
    initial.setLevel (.text "_styles") = (.error .wrongKind, initial) :=
  ⟨rfl, rfl⟩

end Logging

end StandardForm
