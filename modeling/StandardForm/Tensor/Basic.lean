/-!
# Rectangular arrays

An array has a shape, one number per axis, and its entries in row-major order. The type
keeps as many entries as the shape has room for, so that a vector of shape `[n]` has `n`
entries and a matrix of shape `[m, n]` has `m` rows of `n`, whatever built it.
-/

namespace StandardForm

/-- The number of entries of an array of a given shape. -/
def volume : List Nat → Nat
  | [] => 1
  | n :: shape => n * volume shape

@[simp] theorem volume_nil : volume [] = 1 := rfl

@[simp] theorem volume_cons (n : Nat) (shape : List Nat) :
    volume (n :: shape) = n * volume shape := rfl

@[ext]
structure Tensor (α : Type) where
  shape : List Nat
  entries : List α
  length_entries : entries.length = volume shape
  deriving DecidableEq

namespace Tensor

variable {α β γ ε : Type}

def size (t : Tensor α) : Nat := t.entries.length

def scalar (a : α) : Tensor α := ⟨[], [a], rfl⟩

def ofList (as : List α) : Tensor α := ⟨[as.length], as, by simp⟩

def replicate (n : Nat) (a : α) : Tensor α := ⟨[n], List.replicate n a, by simp⟩

/-- The array of a given shape without entries left or missing, if there is one. -/
def ofEntries? (shape : List Nat) (entries : List α) : Option (Tensor α) :=
  if h : entries.length = volume shape then some ⟨shape, entries, h⟩ else none

def map (g : α → β) (t : Tensor α) : Tensor β :=
  ⟨t.shape, t.entries.map g, by simp [t.length_entries]⟩

@[simp] theorem shape_map (g : α → β) (t : Tensor α) : (t.map g).shape = t.shape := rfl

@[simp] theorem entries_map (g : α → β) (t : Tensor α) :
    (t.map g).entries = t.entries.map g := rfl

/-- Corresponding entries of two arrays of one shape combined. -/
def zipWith (g : α → β → γ) (s : Tensor α) (t : Tensor β) (h : s.shape = t.shape) : Tensor γ :=
  ⟨s.shape, List.zipWith g s.entries t.entries, by
    simp [s.length_entries, t.length_entries, h]⟩

/-- Apply a fallible function to the elements of a list, stopping at the first fault. -/
def traverseList (g : α → Except ε β) : (as : List α) →
    Except ε { bs : List β // bs.length = as.length }
  | [] => .ok ⟨[], rfl⟩
  | a :: as =>
    match g a with
    | .error e => .error e
    | .ok b =>
      match traverseList g as with
      | .error e => .error e
      | .ok bs => .ok ⟨b :: bs.1, by simp [bs.2]⟩

/-- Apply a fallible function to every entry in row-major order. -/
def traverse (g : α → Except ε β) (t : Tensor α) : Except ε (Tensor β) :=
  match traverseList g t.entries with
  | .error e => .error e
  | .ok bs => .ok ⟨t.shape, bs.1, by rw [bs.2, t.length_entries]⟩

theorem shape_traverse {g : α → Except ε β} {t : Tensor α} {r : Tensor β}
    (h : t.traverse g = .ok r) : r.shape = t.shape := by
  unfold traverse at h
  split at h
  · cases h
  · cases h; rfl

theorem length_flatMap_entries (shape : List Nat) (ts : List (Tensor α))
    (h : ∀ t ∈ ts, t.shape = shape) :
    (ts.flatMap entries).length = ts.length * volume shape := by
  induction ts with
  | nil => simp
  | cons t ts ih =>
    have ht : t.shape = shape := h t (by simp)
    have hts := ih fun s hs => h s (by simp [hs])
    rw [List.flatMap_cons, List.length_append, hts, t.length_entries, ht, List.length_cons,
      Nat.succ_mul, Nat.add_comm]

/-- Arrays of one shape as the slices of an array with one more axis. Nothing at all makes an
empty vector. -/
def stack? : List (Tensor α) → Option (Tensor α)
  | [] => some (ofList [])
  | t :: ts =>
    if h : ∀ s ∈ t :: ts, s.shape = t.shape then
      some ⟨(ts.length + 1) :: t.shape, (t :: ts).flatMap entries,
        length_flatMap_entries t.shape (t :: ts) h⟩
    else none

/-- All positions of a shape in row-major order. Where one axis has no positions, none are
looked for along the others. -/
def positions : List Nat → List (List Nat)
  | [] => [[]]
  | 0 :: _ => []
  | n :: shape =>
    match positions shape with
    | [] => []
    | inner => (List.range n).flatMap fun i => inner.map (i :: ·)

theorem length_positions (shape : List Nat) : (positions shape).length = volume shape := by
  fun_induction positions shape with
  | case1 => rfl
  | case2 => simp
  | case3 n shape _ h ih => simp [← ih, h]
  | case4 n shape _ inner ih =>
    rw [volume_cons, ← ih]
    simp [List.length_flatMap, List.map_const']

/-- The array whose entries are given by their positions. -/
def ofFn (shape : List Nat) (g : List Nat → α) : Tensor α :=
  ⟨shape, (positions shape).map g, by simp [length_positions]⟩

@[simp] theorem shape_ofFn (shape : List Nat) (g : List Nat → α) : (ofFn shape g).shape = shape :=
  rfl

/-- Where the entry at a position stands among the entries. An axis of length one stands for
every position along it. -/
def offset : (shape position : List Nat) → Nat
  | n :: shape, i :: position =>
    (if n = 1 then 0 else i) * volume shape + offset shape position
  | _, _ => 0

/-- The entry at a position, zero where there is none. -/
def entryAt [Zero α] (t : Tensor α) (position : List Nat) : α :=
  t.entries.getD (offset t.shape position) 0

/-- A list cut into `count` pieces of length `width`. -/
def chunks (width : Nat) : (count : Nat) → List α → List (List α)
  | 0, _ => []
  | count + 1, as => as.take width :: chunks width count (as.drop width)

@[simp] theorem length_chunks (width count : Nat) (as : List α) :
    (chunks width count as).length = count := by
  induction count generalizing as with
  | zero => rfl
  | succ count ih => simp [chunks, ih]

def rows (t : Tensor α) : List (List α) :=
  match t.shape with
  | [m, n] => chunks n m t.entries
  | _ => []

/-- A matrix with the entries of a vector below its last row. -/
def appendRow {m n : Nat} (A q : Tensor α) (hA : A.shape = [m, n]) (hq : q.shape = [n]) :
    Tensor α :=
  ⟨[m + 1, n], A.entries ++ q.entries, by
    rw [List.length_append, A.length_entries, q.length_entries, hA, hq]
    simp [Nat.succ_mul]⟩

def append (b c : Tensor α) : Tensor α := ofList (b.entries ++ c.entries)

theorem shape_append (b c : Tensor α) : (b.append c).shape = [volume b.shape + volume c.shape] := by
  simp [append, ofList, b.length_entries, c.length_entries]

end Tensor

end StandardForm
