import StandardForm.Proofs.Binary.Mean
import StandardForm.Proofs.Datum.Widening
import StandardForm.Proofs.Problem.Bridge
import StandardForm.Proofs.Problem.Faults

/-!
# Programs in both precisions

The checks of a program work on 64-bit copies of its arrays, and comparisons of bounds depend on
nothing but the order of numbers. So on data whose entries are 64-bit numbers a construction in the
extended precision does at every step what the one in the standard precision does, with all numbers
widened: both give the same program or the same fault. Of a quadratic program only one direction
holds, since the tolerance for negative eigenvalues is smaller in the extended precision.
-/

namespace StandardForm

/-! ## Checks -/

section Checks

variable {m n k : ℕ} {A b t : Tensor Double}

theorem Tensor.map_cast_widen (t : Tensor Double) :
    (t.map Binary.widen).map (Binary.cast .double) = t.map (Binary.cast .double) := by
  refine Tensor.ext rfl ?_
  simp

variable [Spectrum.Routines]

theorem Spectrum.leastEigenvalue_widen (t : Tensor Double) :
    leastEigenvalue (t.map Binary.widen) = leastEigenvalue t := by
  unfold leastEigenvalue
  rw [Tensor.map_cast_widen]

theorem Spectrum.rank_widen (t : Tensor Double) (h : t.shape = [m, n]) :
    rank (t.map Binary.widen) = rank t := by
  rw [rank_matrix h, rank_matrix (A := t.map Binary.widen) h, Tensor.map_cast_widen]

theorem Spectrum.rankBeside_widen (hA : A.shape = [m, n]) (hb : b.shape = [k]) :
    rankBeside (A.map Binary.widen) (b.map Binary.widen) = rankBeside A b := by
  rw [rankBeside_matrix hA hb,
    rankBeside_matrix (A := A.map Binary.widen) (b := b.map Binary.widen) hA hb, rowsBeside,
    rowsBeside, Tensor.map_cast_widen, Tensor.map_cast_widen]

/-- Widened equalities are accepted or refused as the equalities are. -/
theorem Equalities.check_widen (hA : A.shape = [m, n]) (hb : b.shape = [k]) :
    check (A.map Binary.widen) (b.map Binary.widen) = check A b := by
  rcases Nat.eq_zero_or_pos m with rfl | hm
  · rw [check_empty hA, check_empty (A := A.map Binary.widen) hA]
  · have hverdict : verdict (A.map Binary.widen) m = verdict A m := by
      funext rankA rankAb
      rw [verdict, verdict, selected, selected, Tensor.map_cast_widen]
    rw [check_matrix hA hm, check_matrix (A := A.map Binary.widen) hA hm,
      Spectrum.rank_widen A hA, Spectrum.rankBeside_widen hA hb, hverdict]

end Checks

namespace Region

def widen (R : Region .standard) : Region .extended where
  N := R.N
  M := R.M
  J := R.J
  A := R.A.map Binary.widen
  b := R.b.map Binary.widen
  G := R.G.map Binary.widen
  g := R.g.map Binary.widen
  d := R.d.map Binary.widen
  u := R.u.map Binary.widen
  A_shape := R.A_shape
  b_shape := R.b_shape
  G_shape := R.G_shape
  g_shape := R.g_shape
  d_shape := R.d_shape
  u_shape := R.u_shape

theorem indicesWhere_map {α β : Type} (w : α → β) (related : β → β → Bool) (xs ys : List α) :
    indicesWhere related (xs.map w) (ys.map w) =
      indicesWhere (fun x y => related (w x) (w y)) xs ys := by
  rw [indicesWhere, indicesWhere, List.zipWith_map]

variable (R : Region .standard)

theorem reversed_widen : R.widen.reversed = R.reversed := by
  have hrelated : (fun d u => (Binary.widen u).lt (Binary.widen d)) =
      fun d u : Double => u.lt d := by
    funext d u
    exact Binary.lt_widen u d
  exact (indicesWhere_map Binary.widen _ _ _).trans
    (congrArg (indicesWhere · R.d.entries R.u.entries) hrelated)

theorem fixed_widen : R.widen.fixed = R.fixed := by
  have hrelated : (fun d u => (Binary.widen d).equals (Binary.widen u)) =
      fun d u : Double => d.equals u := by
    funext d u
    exact Binary.equals_widen d u
  exact (indicesWhere_map Binary.widen _ _ _).trans
    (congrArg (indicesWhere · R.d.entries R.u.entries) hrelated)

/-- A widened region is accepted or refused as the region is. -/
theorem check_widen [Spectrum.Routines] : R.widen.check = R.check := by
  have hfinite (xs : List Double) :
      (xs.map Binary.widen).any Binary.isFinite = xs.any Binary.isFinite := by
    rw [List.any_map]
    exact congrArg (xs.any ·) (funext Binary.isFinite_widen)
  have hbound : R.widen.hasFiniteBound = R.hasFiniteBound :=
    congrArg₂ (· || ·) (hfinite R.d.entries) (hfinite R.u.entries)
  have hbounds : R.widen.checkBounds = R.checkBounds := by
    rw [checkBounds, checkBounds, R.fixed_widen, hbound]
    rfl
  have hequalities : Equalities.check R.widen.A R.widen.b = Equalities.check R.A R.b :=
    Equalities.check_widen R.A_shape R.b_shape
  rw [check, check, hequalities, hbounds]

theorem zipWith_widen {g : Double → Double → Double}
    {k : Binary .extended → Binary .extended → Binary .extended}
    (h : ∀ x y, k (Binary.widen x) (Binary.widen y) = Binary.widen (g x y)) (xs ys : List Double) :
    List.zipWith k (xs.map Binary.widen) (ys.map Binary.widen) =
      (List.zipWith g xs ys).map Binary.widen := by
  rw [List.zipWith_map, List.map_zipWith]
  exact congrArg (List.zipWith · xs ys) (funext₂ h)

theorem orderBounds_widen : R.widen.orderBounds = R.orderBounds.widen := by
  have hlt (d u : Double) : Binary.widen u < Binary.widen d ↔ u < d :=
    Bool.eq_iff_iff.mp (Binary.lt_widen u d)
  have hlower (d u : Double) :
      lowerOf (Binary.widen d) (Binary.widen u) = Binary.widen (lowerOf d u) := by
    simp only [lowerOf, hlt]
    split <;> rfl
  have hupper (d u : Double) :
      upperOf (Binary.widen d) (Binary.widen u) = Binary.widen (upperOf d u) := by
    simp only [upperOf, hlt]
    split <;> rfl
  refine Region.ext rfl rfl rfl rfl rfl rfl rfl ?_ ?_
  · exact Tensor.ext rfl (zipWith_widen hlower _ _)
  · exact Tensor.ext rfl (zipWith_widen hupper _ _)

end Region

namespace LinearProgram

def widen (P : LinearProgram .standard) : LinearProgram .extended :=
  { P.toRegion.widen with c := P.c.map Binary.widen, c_shape := P.c_shape }

variable {room : Prop} {n : Datum}

theorem repair_widen (P : LinearProgram .standard) :
    P.widen.repair = ⟨P.repair.value.widen, P.repair.reversed⟩ := by
  have horder := P.toRegion.orderBounds_widen
  have hvalue : P.widen.repair.value = P.repair.value.widen :=
    LinearProgram.ext rfl rfl rfl rfl rfl rfl rfl (congrArg Region.d horder)
      (congrArg Region.u horder) rfl
  exact congr (congrArg Repaired.mk hvalue) P.toRegion.reversed_widen

/-- A program is assembled in the extended precision as it is in the standard one. -/
theorem assemble_widens {name : String} {costs A b : Source} {G g d u : Option Datum}
    (hn : room → n.RoomyCount) (hcosts : costs.Widenable room) (hA : A.Widenable room)
    (hb : b.Widenable room) (hG : ∀ a ∈ G, a.Widenable room) (hg : ∀ a ∈ g, a.Widenable room)
    (hd : ∀ a ∈ d, a.Widenable room) (hu : ∀ a ∈ u, a.Widenable room) :
    Widens room
      (fun P : { P : LinearProgram .standard // P.N = n.dimension } =>
        (⟨P.1.widen, P.2⟩ : { P : LinearProgram .extended // P.N = n.dimension }))
      (assemble .standard n name costs A b G g d u)
      (assemble .extended n name costs A b G g d u) := by
  have hzero : (Datum.integer 0).RoomyCount :=
    Datum.roomyCount_natural (k := 0) (by decide)
  refine .bind_same fun u' hu' => .bind_same fun d' hd' => .bind_same fun G' hG' =>
    .bind_same fun g' hg' => .bind_same fun M _ => .bind_same fun J _ => ?_
  have hu := Source.widenable_of_vector hu hn hu'
  have hd := Source.widenable_of_vector hd hn hd'
  have hG := Source.widenable_of_matrix (Nat.zero_le 1) hG hn hG'
  have hg := Source.widenable_of_vector hg (fun _ => hzero) hg'
  refine (Source.toMatrix_widens hA hn "A" _).bind fun A' _ => ?_
  refine (Source.toMatrix_widens hG hn "G" _).bind fun G'' _ => ?_
  refine (Source.toVector_widens hcosts name).bind fun c' _ => ?_
  refine (Source.toVector_widens hd "d").bind fun d'' _ => ?_
  refine (Source.toVector_widens hu "u").bind fun u'' _ => ?_
  refine (Source.toVector_widens hb "b").bind fun b' _ => ?_
  exact (Source.toVector_widens hg "g").bind fun g'' _ => .ok _

/-- What is made of a widened program after its checks is what is made of the program. -/
theorem finish_widens [Spectrum.Routines] {α β : Type} {w : α → β}
    {k : (P : LinearProgram .standard) → P.N = n.dimension → α}
    {k' : (P : LinearProgram .extended) → P.N = n.dimension → β}
    (hk : ∀ P hP, k' P.widen hP = w (k P hP))
    (P : { P : LinearProgram .standard // P.N = n.dimension }) :
    Widens room (fun r : Repaired α => (⟨w r.value, r.reversed⟩ : Repaired β)) (finish k P)
      (finish k' ⟨P.1.widen, P.2⟩) := by
  have hcheck : P.1.widen.check = P.1.check := P.1.toRegion.check_widen
  unfold finish
  rw [hcheck]
  refine .bind_same fun _ _ => .of_eq (congrArg Except.ok ?_)
  have hrepair := P.1.repair_widen
  have hvalue (h : P.1.widen.repair.value.N = n.dimension) :
      k' P.1.widen.repair.value h = w (k P.1.repair.value P.2) := by
    generalize P.1.widen.repair = r at h hrepair ⊢
    subst hrepair
    exact hk _ _
  exact congr (congrArg Repaired.mk (hvalue _)) (congrArg Repaired.reversed hrepair)

theorem roomyCount_of_count {data : Data} (hc : data.c.Roomy)
    (hN : ∀ n ∈ data.N, n.RoomyCount) (hn : data.count = .ok n) : n.RoomyCount := by
  cases hgiven : data.N with
  | some n' =>
    rw [Data.count, hgiven] at hn
    cases pure_eq_ok.mp hn
    exact hN n hgiven
  | none =>
    rw [Data.count, hgiven] at hn
    obtain ⟨k, hk, rfl⟩ := map_eq_ok.mp (show Except.map _ _ = Except.ok n from hn)
    obtain ⟨m, hm, hk⟩ := bind_eq_ok.mp hk
    obtain rfl : (m : ℤ) = k := pure_eq_ok.mp hk
    obtain ⟨t, ht, rfl⟩ := map_eq_ok.mp (show data.c.elements.map Tensor.size = .ok m from hm)
    have hsize : t.size = volume t.shape := t.length_entries
    exact Datum.roomyCount_natural (hsize ▸ storable_volume (hc t ht))

/-- A linear program is settled in the extended precision as it is in the standard one. -/
theorem settle_widens [Spectrum.Routines] {data : Data} (h : ∀ d ∈ data.arrays, d.Widenable room)
    (hN : room → ∀ n ∈ data.N, n.RoomyCount) :
    Widens room (fun r : Repaired (LinearProgram .standard) =>
        (⟨r.value.widen, r.reversed⟩ : Repaired (LinearProgram .extended)))
      (settle .standard data) (settle .extended data) := by
  have hc : data.c.Widenable room := h _ (by simp [Data.arrays])
  have hcosts : (Source.given data.c).Widenable room := hc
  have hA : (Source.given data.region.A).Widenable room :=
    h _ (by simp [Data.arrays, Region.Data.arrays])
  have hb : (Source.given data.region.b).Widenable room :=
    h _ (by simp [Data.arrays, Region.Data.arrays])
  have hoption {x : Option Datum}
      (hx : x ∈ [data.region.G, data.region.g, data.region.d, data.region.u]) :
      ∀ a ∈ x, a.Widenable room := fun a ha => h a (by
    refine List.mem_cons_of_mem _ (List.mem_cons_of_mem _ (List.mem_cons_of_mem _ ?_))
    exact List.mem_filterMap.mpr ⟨x, hx, ha⟩)
  rw [settle_eq, settle_eq]
  refine .bind_same fun n hn => ?_
  have hcount : room → n.RoomyCount := fun hroom =>
    roomyCount_of_count (hc.2 hroom) (hN hroom) hn
  refine (assemble_widens hcount hcosts hA hb (hoption (by simp)) (hoption (by simp))
    (hoption (by simp)) (hoption (by simp))).bind fun P _ => ?_
  exact finish_widens (fun _ _ => rfl) P

end LinearProgram

end StandardForm
