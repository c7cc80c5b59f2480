import Mathlib.Data.Finset.SymmDiff
import Mathlib.Data.List.Sort
import StandardForm.Proofs.Problem.Box

/-!
# Lower and upper bounds exchanged by the caller

A caller may hand in the bounds of some variables in the other order. As long as no bound is a NaN
this makes no difference to the program: every check treats the two bounds of a variable alike, and
putting them in order leaves the lower and the upper one. What changes is where bounds had to be
exchanged, and it changes exactly at the variables concerned, because bounds that agree are refused.
-/

namespace StandardForm

/-! ## Lists and vectors -/

section Exchange

variable {α β : Type} (S : Finset Nat)

/-- The entries of a list, those at the indices in `S` taken from another one. -/
def exchangedAt (xs ys : List α) : List α :=
  (xs.zip ys).mapIdx fun i v => if i ∈ S then v.2 else v.1

variable {xs ys : List α}

theorem length_exchangedAt (h : xs.length = ys.length) :
    (exchangedAt S xs ys).length = xs.length := by
  simp [exchangedAt, h]

theorem getElem?_exchangedAt (h : xs.length = ys.length) (i : Nat) :
    (exchangedAt S xs ys)[i]? = if i ∈ S then ys[i]? else xs[i]? := by
  rcases Nat.lt_or_ge i xs.length with hi | hi
  · have hj : i < ys.length := h ▸ hi
    by_cases hS : i ∈ S <;> simp [exchangedAt, hi, hj, hS]
  · have hj : ys.length ≤ i := h ▸ hi
    have hlength : (exchangedAt S xs ys).length ≤ i := (length_exchangedAt S h).trans_le hi
    simp [hi, hj, hlength]

/-- What depends on both entries alike does not notice an exchange. -/
theorem zipWith_exchangedAt {g : α → α → β} (h : xs.length = ys.length)
    (hg : ∀ (i : Nat) (x y : α), xs[i]? = some x → ys[i]? = some y → g x y = g y x) :
    List.zipWith g (exchangedAt S xs ys) (exchangedAt S ys xs) = List.zipWith g xs ys := by
  refine List.ext_getElem? fun i => ?_
  rw [List.getElem?_zipWith, List.getElem?_zipWith, getElem?_exchangedAt S h,
    getElem?_exchangedAt S h.symm]
  by_cases hS : i ∈ S
  · rw [if_pos hS, if_pos hS]
    cases hx : xs[i]? with
    | none => cases ys[i]? <;> rfl
    | some x =>
      cases hy : ys[i]? with
      | none => rfl
      | some y => exact congrArg some (hg i x y hx hy).symm
  · rw [if_neg hS, if_neg hS]

/-- The vector whose entries at the indices in `S` are taken from another one. -/
def Shaped.exchangedAt {shape : List Nat} (v w : Shaped α shape) : Shaped α shape :=
  ⟨⟨v.1.shape, StandardForm.exchangedAt S v.1.entries w.1.entries, by
    rw [length_exchangedAt S (by rw [v.1.length_entries, w.1.length_entries, v.2, w.2]),
      v.1.length_entries]⟩, v.2⟩

/-- Of the indices below `n` those that are in one of a list and a set but not in both. -/
def toggled (n : Nat) (indices : List Nat) : List Nat :=
  (List.range n).filter fun i => decide (i ∈ indices ↔ i ∉ S)

theorem mem_toggled {n i : Nat} {indices : List Nat} :
    i ∈ toggled S n indices ↔ i < n ∧ (i ∈ indices ↔ i ∉ S) := by
  rw [toggled, List.mem_filter, List.mem_range, decide_eq_true_iff]

theorem pairwise_toggled (n : Nat) (indices : List Nat) : (toggled S n indices).Pairwise (· < ·) :=
  List.pairwise_lt_range.filter _

theorem toFinset_toggled {n : Nat} {indices : List Nat} (hS : S ⊆ Finset.range n)
    (hindices : ∀ i ∈ indices, i < n) :
    (toggled S n indices).toFinset = symmDiff indices.toFinset S := by
  ext i
  have hlt : i ∈ S → i < n := fun h => Finset.mem_range.mp (hS h)
  have hlt' : i ∈ indices → i < n := hindices i
  simp only [List.mem_toFinset, mem_toggled, Finset.mem_symmDiff]
  tauto

end Exchange

namespace Region

variable {p : Precision} {R : Region p} (S : Finset Nat)

theorem mem_reversed {i : Nat} :
    i ∈ R.reversed ↔ ∃ x y, R.d.entries[i]? = some x ∧ R.u.entries[i]? = some y ∧ y < x :=
  mem_indicesWhere

theorem lt_of_mem_reversed {i : Nat} (h : i ∈ R.reversed) : i < R.N := by
  obtain ⟨x, y, hx, -, -⟩ := mem_reversed.mp h
  have hi := (List.getElem?_eq_some_iff.mp hx).1
  rwa [R.d.length_entries, R.d_shape, volume_cons, volume_nil, Nat.mul_one] at hi

/-- The region with the bounds of the variables in `S` exchanged. -/
def exchange (R : Region p) : Region p :=
  R.withBounds (Shaped.exchangedAt S ⟨R.d, R.d_shape⟩ ⟨R.u, R.u_shape⟩)
    (Shaped.exchangedAt S ⟨R.u, R.u_shape⟩ ⟨R.d, R.d_shape⟩)

theorem entries_exchange :
    (R.exchange S).d.entries = exchangedAt S R.d.entries R.u.entries ∧
      (R.exchange S).u.entries = exchangedAt S R.u.entries R.d.entries :=
  ⟨rfl, rfl⟩

/-- Whether the bounds of a variable agree does not depend on their order. -/
theorem fixed_exchange : (R.exchange S).fixed = R.fixed := by
  unfold fixed indicesWhere
  rw [(entries_exchange S).1, (entries_exchange S).2,
    zipWith_exchangedAt S R.length_bounds fun _ x y _ _ => Binary.equals_comm x y]

theorem hasFiniteBound_exchange : (R.exchange S).hasFiniteBound = R.hasFiniteBound := by
  unfold hasFiniteBound
  rw [any_or_any _ (R.exchange S).length_bounds, any_or_any _ R.length_bounds,
    (entries_exchange S).1, (entries_exchange S).2,
    zipWith_exchangedAt S R.length_bounds fun _ x y _ _ => Bool.or_comm x.isFinite y.isFinite]

theorem check_exchange [Spectrum.Routines] : (R.exchange S).check = R.check := by
  unfold check checkBounds
  rw [fixed_exchange, hasFiniteBound_exchange]
  rfl

/-! ## Bounds that differ everywhere -/

/-- No bound is a NaN and no two bounds of a variable agree. -/
structure Distinct (R : Region p) : Prop where
  lower : NaNFree R.d.entries
  upper : NaNFree R.u.entries
  fixed : R.fixed = []

section Pair

variable {f : FloatFormat} {x y : Binary f}

theorem lowerOf_comm (h : x < y ↔ ¬ y < x) : lowerOf x y = lowerOf y x := by
  unfold lowerOf
  by_cases hyx : y < x
  · rw [if_pos hyx, if_neg fun hxy => h.mp hxy hyx]
  · rw [if_neg hyx, if_pos (h.mpr hyx)]

theorem upperOf_comm (h : x < y ↔ ¬ y < x) : upperOf x y = upperOf y x := by
  unfold upperOf
  by_cases hyx : y < x
  · rw [if_pos hyx, if_neg fun hxy => h.mp hxy hyx]
  · rw [if_neg hyx, if_pos (h.mpr hyx)]

theorem lowerOf_eq_min (hx : x.isNaN = false) (hy : y.isNaN = false) :
    lowerOf x y = Binary.min x y := by
  simp [lowerOf, Binary.min, hx, hy]

theorem upperOf_eq_max (hx : x.isNaN = false) (hy : y.isNaN = false) (h : x < y ↔ ¬ y < x) :
    upperOf x y = Binary.max x y := by
  rw [upperOf_comm h]
  simp [upperOf, Binary.max, hx, hy]

end Pair

namespace Distinct

variable {i : Nat} {x y : p.Entry}

/-- Exactly one of the bounds of a variable is below the other. -/
theorem lt_iff (h : R.Distinct) (hx : R.d.entries[i]? = some x) (hy : R.u.entries[i]? = some y) :
    x < y ↔ ¬ y < x := by
  have hequals : x.equals y = false := by
    refine indicesWhere_eq_nil.mp h.fixed _ (List.mem_of_getElem? (i := i) ?_)
    simp [List.getElem?_zipWith, hx, hy]
  have hnan : x.isNaN = false ∧ y.isNaN = false :=
    ⟨h.lower x (List.mem_of_getElem? hx), h.upper y (List.mem_of_getElem? hy)⟩
  constructor
  · intro hlt
    exact Bool.eq_false_iff.mp (Binary.lt_asymm hlt)
  · exact (Binary.lt_or_gt hnan.1 hnan.2 hequals).resolve_right

/-- Bounds in order are the lower and the upper one, whichever comes first. -/
theorem orderBounds_exchange (h : R.Distinct) : (R.exchange S).orderBounds = R.orderBounds := by
  have hlower : List.zipWith lowerOf (exchangedAt S R.d.entries R.u.entries)
      (exchangedAt S R.u.entries R.d.entries) = List.zipWith lowerOf R.d.entries R.u.entries :=
    zipWith_exchangedAt S R.length_bounds fun _ _ _ hx hy => lowerOf_comm (h.lt_iff hx hy)
  have hupper : List.zipWith upperOf (exchangedAt S R.d.entries R.u.entries)
      (exchangedAt S R.u.entries R.d.entries) = List.zipWith upperOf R.d.entries R.u.entries :=
    zipWith_exchangedAt S R.length_bounds fun _ _ _ hx hy => upperOf_comm (h.lt_iff hx hy)
  exact Region.ext rfl rfl rfl rfl rfl rfl rfl (Tensor.ext rfl hlower) (Tensor.ext rfl hupper)

/-- The bounds in order are the lesser and the greater one of each pair. -/
theorem entries_orderBounds (h : R.Distinct) :
    R.orderBounds.d.entries = List.zipWith Binary.min R.d.entries R.u.entries ∧
      R.orderBounds.u.entries = List.zipWith Binary.max R.d.entries R.u.entries := by
  constructor
  · change List.zipWith lowerOf R.d.entries R.u.entries = _
    refine List.ext_getElem (by simp) fun i hi _ => ?_
    obtain ⟨hd, hu⟩ : i < R.d.entries.length ∧ i < R.u.entries.length := by simpa using hi
    simp only [List.getElem_zipWith]
    exact lowerOf_eq_min (h.lower _ (List.getElem_mem hd)) (h.upper _ (List.getElem_mem hu))
  · change List.zipWith upperOf R.d.entries R.u.entries = _
    refine List.ext_getElem (by simp) fun i hi _ => ?_
    obtain ⟨hd, hu⟩ : i < R.d.entries.length ∧ i < R.u.entries.length := by simpa using hi
    simp only [List.getElem_zipWith]
    exact upperOf_eq_max (h.lower _ (List.getElem_mem hd)) (h.upper _ (List.getElem_mem hu))
      (h.lt_iff (List.getElem?_eq_getElem hd) (List.getElem?_eq_getElem hu))

/-- Exchanging the bounds of some variables changes where they are in reverse order. -/
theorem reversed_exchange (h : R.Distinct) :
    (R.exchange S).reversed = toggled S R.N R.reversed := by
  refine (pairwise_indicesWhere _ _ _).eq_of_mem_iff (pairwise_toggled S R.N R.reversed) fun i => ?_
  change i ∈ (R.exchange S).reversed ↔ _
  rw [mem_toggled]
  rcases Nat.lt_or_ge i R.N with hi | hi
  · obtain ⟨x, hx⟩ : ∃ x, R.d.entries[i]? = some x :=
      ⟨_, List.getElem?_eq_getElem (by simpa [R.d.length_entries, R.d_shape] using hi)⟩
    obtain ⟨y, hy⟩ : ∃ y, R.u.entries[i]? = some y :=
      ⟨_, List.getElem?_eq_getElem (by simpa [R.u.length_entries, R.u_shape] using hi)⟩
    have hlt := h.lt_iff hx hy
    simp only [mem_reversed, (entries_exchange S).1, (entries_exchange S).2,
      getElem?_exchangedAt S R.length_bounds, getElem?_exchangedAt S R.length_bounds.symm]
    by_cases hS : i ∈ S <;> simp [hS, hx, hy, hi, hlt]
  · have hout (R' : Region p) (hN : R'.N = R.N) : i ∉ R'.reversed := by
      intro hmem
      have := lt_of_mem_reversed hmem
      omega
    simp [hout (R.exchange S) rfl, Nat.not_lt.mpr hi]

end Distinct

theorem distinct_of_check [Spectrum.Routines] (hlower : NaNFree R.d.entries)
    (hupper : NaNFree R.u.entries)
    (h : R.check = .ok ()) : R.Distinct := by
  obtain ⟨⟨⟩, -, hbounds⟩ := bind_eq_ok.mp h
  exact ⟨hlower, hupper, (checkBounds_eq_ok.mp hbounds).1⟩

end Region

end StandardForm
