import Mathlib.Data.List.GetD
import Mathlib.Probability.ProbabilityMassFunction.Constructions
import Mathlib.Tactic.Linarith
import Tea.Lib.CappedRejection
import Tea.Lib.Expect
import Tea.Lib.Sums
/-!
# Laws of results

The results of a random program have a law, a `PMF`. Two laws are `Within ε` if the mean of no test with values in the
unit interval differs by more than `ε`; `ε` is then a bound on their total variation distance (`within_iff_tvDist`).
Programs put together from parts with laws have the law put together from these (`HasLaw.bind`), and the errors of parts
add up (`Within.bind`).

`pick` chooses among finitely many results in proportion to weights.
-/

namespace Tea.Laws

open scoped ENNReal

variable {α β γ : Type}

/-! ### Means -/

/-- The mean of `f` under `p`. -/
noncomputable def mean (p : PMF α) (f : α → ℝ≥0∞) : ℝ≥0∞ := tsum fun a => p a * f a

theorem mean_pure (a : α) (f : α → ℝ≥0∞) : mean (PMF.pure a) f = f a := by
  rw [mean, tsum_eq_single a fun b hb => by rw [PMF.pure_apply_of_ne a b hb, zero_mul], PMF.pure_apply_self, one_mul]

theorem mean_bind (p : PMF α) (g : α → PMF β) (f : β → ℝ≥0∞) :
    mean (p.bind g) f = mean p fun a => mean (g a) f := by
  unfold mean
  simp only [PMF.bind_apply, ← ENNReal.tsum_mul_right, ← ENNReal.tsum_mul_left]
  rw [ENNReal.tsum_comm]
  simp only [mul_assoc]

theorem mean_map (g : α → β) (p : PMF α) (f : β → ℝ≥0∞) : mean (p.map g) f = mean p fun a => f (g a) := by
  rw [PMF.map, mean_bind]
  simp only [Function.comp_apply, mean_pure]

theorem mean_const (p : PMF α) (c : ℝ≥0∞) : mean p (fun _ => c) = c := by
  rw [mean, ENNReal.tsum_mul_right, p.tsum_coe, one_mul]

theorem mean_add (p : PMF α) (f g : α → ℝ≥0∞) : mean p (fun a => f a + g a) = mean p f + mean p g := by
  unfold mean
  simp only [mul_add]
  exact ENNReal.tsum_add

theorem mean_sum {ι : Type} (p : PMF α) (s : Finset ι) (g : ι → α → ℝ≥0∞) :
    mean p (fun a => ∑ i ∈ s, g i a) = ∑ i ∈ s, mean p (g i) := by
  unfold mean
  simp only [Finset.mul_sum]
  exact Summable.tsum_finsetSum fun _ _ => ENNReal.summable

theorem mean_mul (p : PMF α) (f : α → ℝ≥0∞) (c : ℝ≥0∞) : mean p (fun a => f a * c) = mean p f * c := by
  unfold mean
  simp only [← mul_assoc]
  exact ENNReal.tsum_mul_right

theorem mean_mono {p : PMF α} {f g : α → ℝ≥0∞} (h : ∀ a, p a ≠ 0 → f a ≤ g a) : mean p f ≤ mean p g := by
  apply ENNReal.tsum_le_tsum
  intro a
  rcases eq_or_ne (p a) 0 with hzero | hne
  · rw [hzero, zero_mul, zero_mul]
  · exact mul_le_mul_right (h a hne) (p a)

theorem mean_congr {p : PMF α} {f g : α → ℝ≥0∞} (h : ∀ a, p a ≠ 0 → f a = g a) : mean p f = mean p g :=
  le_antisymm (mean_mono fun a ha => (h a ha).le) (mean_mono fun a ha => (h a ha).ge)

theorem mean_le_one {p : PMF α} {f : α → ℝ≥0∞} (h : ∀ a, f a ≤ 1) : mean p f ≤ 1 :=
  (mean_mono fun a _ => h a).trans_eq (mean_const p 1)

theorem mean_ne_top (p : PMF α) {f : α → ℝ≥0∞} (h : ∀ a, f a ≤ 1) : mean p f ≠ ⊤ :=
  ((mean_le_one h).trans_lt ENNReal.one_lt_top).ne

open Classical in
theorem mean_single (p : PMF α) (a : α) : mean p (fun b => if b = a then 1 else 0) = p a := by
  rw [mean, tsum_eq_single a fun b hb => by rw [if_neg hb, mul_zero], if_pos rfl, mul_one]

theorem ext_mean {p q : PMF α} (h : ∀ f : α → ℝ≥0∞, (∀ a, f a ≤ 1) → mean p f = mean q f) : p = q := by
  classical
  apply PMF.ext
  intro a
  rw [← mean_single p a, ← mean_single q a]
  apply h
  intro b
  split_ifs
  · exact le_rfl
  · exact zero_le_one

/-! ### Laws that tests hardly tell apart -/

/-- The mean of no test with values in the unit interval differs by more than `ε`. -/
def Within (ε : ℝ≥0∞) (p q : PMF α) : Prop := ∀ f : α → ℝ≥0∞, (∀ a, f a ≤ 1) → mean p f ≤ mean q f + ε

namespace Within

variable {ε δ : ℝ≥0∞} {p q r : PMF α}

theorem refl (p : PMF α) : Within 0 p p := fun _ _ => le_self_add

theorem mono (h : Within ε p q) (hle : ε ≤ δ) : Within δ p q :=
  fun f hf => (h f hf).trans (add_le_add_right hle _)

theorem trans (h : Within ε p q) (h' : Within δ q r) : Within (ε + δ) p r := by
  intro f hf
  calc mean p f ≤ mean q f + ε := h f hf
    _ ≤ mean r f + δ + ε := add_le_add_left (h' f hf) ε
    _ = mean r f + (ε + δ) := by rw [add_assoc, add_comm δ]

theorem symm (h : Within ε p q) : Within ε q p := by
  intro f hf
  have hsplit : ∀ p : PMF α, mean p f + mean p (fun a => 1 - f a) = 1 := by
    intro p
    rw [← mean_add, mean_congr fun a _ => add_tsub_cancel_of_le (hf a), mean_const]
  have hcompl := h (fun a => 1 - f a) fun a => tsub_le_self
  apply (ENNReal.add_le_add_iff_right (mean_ne_top q fun a => tsub_le_self)).mp
  calc mean q f + mean q (fun a => 1 - f a) = mean p f + mean p (fun a => 1 - f a) := by rw [hsplit, hsplit]
    _ ≤ mean p f + (mean q (fun a => 1 - f a) + ε) := add_le_add_right hcompl _
    _ = mean p f + ε + mean q (fun a => 1 - f a) := by rw [add_assoc, add_comm ε]

/-- **The errors add up**: of the first part, and of the second part after each result that the second law allows. -/
theorem bind (h : Within ε p q) {g g' : α → PMF β} (hg : ∀ a, q a ≠ 0 → Within δ (g a) (g' a)) :
    Within (ε + δ) (p.bind g) (q.bind g') := by
  intro f hf
  rw [mean_bind, mean_bind]
  calc mean p (fun a => mean (g a) f)
      ≤ mean q (fun a => mean (g a) f) + ε := h _ fun a => mean_le_one hf
    _ ≤ mean q (fun a => mean (g' a) f + δ) + ε := add_le_add_left (mean_mono fun a ha => hg a ha f hf) ε
    _ = mean q (fun a => mean (g' a) f) + (ε + δ) := by rw [mean_add, mean_const, add_assoc, add_comm δ]

theorem map (h : Within ε p q) (g : α → β) : Within ε (p.map g) (q.map g) := by
  intro f hf
  rw [mean_map, mean_map]
  exact h _ fun a => hf (g a)

theorem eq_of_zero (h : Within 0 p q) : p = q := by
  apply ext_mean
  intro f hf
  apply le_antisymm
  · exact (h f hf).trans_eq (add_zero _)
  · exact (h.symm f hf).trans_eq (add_zero _)

end Within

/-! ### The total variation distance -/

theorem hasSum_toReal (p : PMF α) : HasSum (fun a => (p a).toReal) 1 := by
  have h := ENNReal.hasSum_toReal (p.tsum_coe ▸ ENNReal.one_ne_top : tsum p ≠ ⊤)
  rwa [← ENNReal.tsum_toReal_eq p.apply_ne_top, p.tsum_coe, ENNReal.toReal_one] at h

theorem hasSum_mean (p : PMF α) {f : α → ℝ≥0∞} (hf : ∀ a, f a ≤ 1) :
    HasSum (fun a => (p a).toReal * (f a).toReal) (mean p f).toReal := by
  have h := ENNReal.hasSum_toReal (mean_ne_top p hf)
  simpa only [ENNReal.toReal_mul, mean, ENNReal.tsum_toReal_eq (fun a => ENNReal.mul_ne_top (p.apply_ne_top a)
    ((hf a).trans_lt ENNReal.one_lt_top).ne)] using h

theorem hasSum_excess (p q : PMF α) : HasSum (fun a => max ((p a).toReal - (q a).toReal) 0)
    (tvDist (fun a => (p a).toReal) fun a => (q a).toReal) := by
  have hp := hasSum_toReal p
  have hq := hasSum_toReal q
  have habs : Summable fun a => |(p a).toReal - (q a).toReal| := (hp.sub hq).summable.abs
  have h := (habs.hasSum.add (hp.sub hq)).div_const 2
  rw [sub_self, add_zero] at h
  have hmax : (fun a => max ((p a).toReal - (q a).toReal) 0) =
      fun a => (|(p a).toReal - (q a).toReal| + ((p a).toReal - (q a).toReal)) / 2 := by
    funext a
    rcases le_total 0 ((p a).toReal - (q a).toReal) with hpos | hneg
    · rw [max_eq_left hpos, abs_of_nonneg hpos]
      ring
    · rw [max_eq_right hneg, abs_of_nonpos hneg]
      ring
  rw [hmax]
  exact h

theorem within_iff_tvDist {ε : ℝ} (hε : 0 ≤ ε) (p q : PMF α) :
    Within (ENNReal.ofReal ε) p q ↔ tvDist (fun a => (p a).toReal) (fun a => (q a).toReal) ≤ ε := by
  classical
  have hexcess := hasSum_excess p q
  constructor
  · intro h
    set f : α → ℝ≥0∞ := fun a => if (q a).toReal ≤ (p a).toReal then 1 else 0 with hf
    have hf1 : ∀ a, f a ≤ 1 := by
      intro a
      rw [hf]
      dsimp only
      split_ifs
      · exact le_rfl
      · exact zero_le_one
    have hdiff := (hasSum_mean p hf1).sub (hasSum_mean q hf1)
    have hsame : (fun a => (p a).toReal * (f a).toReal - (q a).toReal * (f a).toReal) =
        fun a => max ((p a).toReal - (q a).toReal) 0 := by
      funext a
      rw [hf, ← sub_mul]
      dsimp only
      split_ifs with hle
      · rw [ENNReal.toReal_one, mul_one, max_eq_left (sub_nonneg.mpr hle)]
      · rw [ENNReal.toReal_zero, mul_zero, max_eq_right (sub_nonpos.mpr (not_le.mp hle).le)]
    rw [hsame] at hdiff
    rw [hexcess.unique hdiff]
    have hle := ENNReal.toReal_mono (ENNReal.add_ne_top.mpr ⟨mean_ne_top q hf1, ENNReal.ofReal_ne_top⟩) (h f hf1)
    rw [ENNReal.toReal_add (mean_ne_top q hf1) ENNReal.ofReal_ne_top, ENNReal.toReal_ofReal hε] at hle
    linarith
  · intro h f hf
    have hdiff := (hasSum_mean p hf).sub (hasSum_mean q hf)
    have hle : (mean p f).toReal - (mean q f).toReal ≤ ε := by
      refine (hasSum_le (fun a => ?_) hdiff hexcess).trans h
      have hunit : (f a).toReal ≤ 1 := by
        rw [← ENNReal.toReal_one]
        exact ENNReal.toReal_mono ENNReal.one_ne_top (hf a)
      rw [← sub_mul]
      rcases le_total 0 ((p a).toReal - (q a).toReal) with hpos | hneg
      · exact (mul_le_of_le_one_right hpos hunit).trans (le_max_left _ _)
      · exact (mul_nonpos_of_nonpos_of_nonneg hneg ENNReal.toReal_nonneg).trans (le_max_right _ _)
    rw [← ENNReal.ofReal_toReal (mean_ne_top p hf), ← ENNReal.ofReal_toReal (mean_ne_top q hf),
      ← ENNReal.ofReal_add ENNReal.toReal_nonneg hε]
    apply ENNReal.ofReal_le_ofReal
    linarith

/-! ### Independent samples -/

/-- One sample from each law, independently. -/
noncomputable def independent : List (PMF α) → PMF (List α)
  | [] => PMF.pure []
  | p :: ps => p.bind fun a => (independent ps).map (a :: ·)

theorem within_independent {ι : Type} {xs : List ι} {p q : ι → PMF α} {ε : ℝ≥0∞} (h : ∀ x ∈ xs, Within ε (p x) (q x)) :
    Within (xs.length * ε) (independent (xs.map p)) (independent (xs.map q)) := by
  induction xs with
  | nil => exact (Within.refl _).mono zero_le
  | cons x xs ih =>
      have htail := ih fun y hy => h y (List.mem_cons_of_mem x hy)
      rw [List.length_cons, Nat.cast_succ, add_comm, add_mul, one_mul]
      exact (h x List.mem_cons_self).bind fun a _ => htail.map (a :: ·)

theorem map_zipWith_independent {ι : Type} (xs : List ι) (p : PMF α) (f : ι → α → β) :
    (independent (xs.map fun _ => p)).map (List.zipWith f xs) = independent (xs.map fun x => p.map (f x)) := by
  induction xs with
  | nil => rw [List.map_nil, List.map_nil, independent, independent, PMF.pure_map, List.zipWith_nil_left]
  | cons x xs ih =>
      rw [List.map_cons, List.map_cons, independent, independent, ← ih, PMF.map_bind, PMF.bind_map]
      congr 1
      funext a
      rw [Function.comp_apply, PMF.map_comp, PMF.map_comp]
      rfl

/-! ### Picking by weight -/

open Classical in
/-- Element `i` of `xs` with its share of the weights `w`; `default` if there is no weight. -/
noncomputable def pick (xs : List α) (w : Nat → ℝ≥0∞) (default : α) : PMF α :=
  if h : (tsum fun i : Fin xs.length => w i) = 0 ∨ (tsum fun i : Fin xs.length => w i) = ⊤ then PMF.pure default
  else (PMF.normalize (fun i : Fin xs.length => w i) (fun hzero => h (.inl hzero)) fun htop => h (.inr htop)).map
    fun i : Fin xs.length => xs.getD i default

theorem mean_pick (xs : List α) {w : Nat → ℝ≥0∞} (hw : ∀ i, w i ≠ ⊤) (default : α) (f : α → ℝ≥0∞) :
    mean (pick xs w default) f = if ∑ i ∈ Finset.range xs.length, w i = 0 then f default
      else ∑ i ∈ Finset.range xs.length,
        w i / (∑ j ∈ Finset.range xs.length, w j) * f (xs.getD i default) := by
  have htotal : (tsum fun i : Fin xs.length => w i) = ∑ i ∈ Finset.range xs.length, w i := by
    rw [tsum_fintype, Finset.sum_range]
  have htop : ∑ i ∈ Finset.range xs.length, w i ≠ ⊤ := ENNReal.sum_ne_top.mpr fun i _ => hw i
  split_ifs with hzero
  · rw [pick, dif_pos (.inl (htotal.trans hzero)), mean_pure]
  · rw [pick, dif_neg (by rw [htotal]; tauto), mean_map, mean, tsum_fintype]
    refine Eq.trans (Finset.sum_congr rfl fun i _ => ?_) (Finset.sum_range _).symm
    rw [PMF.normalize_apply, htotal, div_eq_mul_inv]

theorem mean_pick_ofReal (xs : List α) {w : Nat → ℝ} (hw : ∀ i, 0 ≤ w i) (default : α) (f : α → ℝ≥0∞) :
    mean (pick xs (fun i => ENNReal.ofReal (w i)) default) f =
      if ∑ i ∈ Finset.range xs.length, w i = 0 then f default
      else ∑ i ∈ Finset.range xs.length,
        ENNReal.ofReal (w i / ∑ j ∈ Finset.range xs.length, w j) * f (xs.getD i default) := by
  have htotal : ∑ i ∈ Finset.range xs.length, ENNReal.ofReal (w i) =
      ENNReal.ofReal (∑ i ∈ Finset.range xs.length, w i) := (ENNReal.ofReal_sum_of_nonneg fun i _ => hw i).symm
  have hnonneg : 0 ≤ ∑ i ∈ Finset.range xs.length, w i := Finset.sum_nonneg fun i _ => hw i
  have hiff : ENNReal.ofReal (∑ i ∈ Finset.range xs.length, w i) = 0 ↔ ∑ i ∈ Finset.range xs.length, w i = 0 := by
    rw [ENNReal.ofReal_eq_zero]
    exact ⟨fun h => le_antisymm h hnonneg, fun h => h.le⟩
  rw [mean_pick _ fun i => ENNReal.ofReal_ne_top, htotal]
  simp only [hiff]
  split_ifs with hzero
  · rfl
  · apply Finset.sum_congr rfl
    intro i _
    rw [ENNReal.ofReal_div_of_pos (hnonneg.lt_of_ne' hzero)]

theorem sum_mul_mean_pick (xs : List α) {w : Nat → ℝ≥0∞} (hw : ∀ i, w i ≠ ⊤) (default : α)
    (hsum : ∑ i ∈ Finset.range xs.length, w i ≠ 0) (f : α → ℝ≥0∞) :
    (∑ i ∈ Finset.range xs.length, w i) * mean (pick xs w default) f =
      ∑ i ∈ Finset.range xs.length, w i * f (xs.getD i default) := by
  rw [mean_pick xs hw, if_neg hsum, Finset.mul_sum]
  apply Finset.sum_congr rfl
  intro i _
  rw [← mul_assoc, ENNReal.mul_div_cancel hsum (ENNReal.sum_ne_top.mpr fun i _ => hw i)]

theorem pick_map (xs : List α) {w : Nat → ℝ≥0∞} (hw : ∀ i, w i ≠ ⊤) (default : α) (g : α → β) :
    (pick xs w default).map g = pick (xs.map g) w (g default) := by
  apply ext_mean
  intro f _
  rw [mean_map, mean_pick xs hw, mean_pick (xs.map g) hw, List.length_map]
  congr 1
  apply Finset.sum_congr rfl
  intro i _
  rw [List.getD_map]

theorem pick_congr (xs : List α) {w w' : Nat → ℝ≥0∞} (hw : ∀ i, w i ≠ ⊤) (hw' : ∀ i, w' i ≠ ⊤) (default : α)
    (h : ∀ i < xs.length, w i = w' i) : pick xs w default = pick xs w' default := by
  have hrange : ∀ i ∈ Finset.range xs.length, w i = w' i := fun i hi => h i (Finset.mem_range.mp hi)
  apply ext_mean
  intro f _
  rw [mean_pick xs hw, mean_pick xs hw', Finset.sum_congr rfl hrange]
  congr 1
  apply Finset.sum_congr rfl
  intro i hi
  rw [hrange i hi]

theorem mem_of_pick {xs : List α} {w : Nat → ℝ≥0∞} (hw : ∀ i, w i ≠ ⊤) {default a : α}
    (ha : pick xs w default a ≠ 0) : a ∈ xs ∨ a = default := by
  classical
  by_contra hnone
  push Not at hnone
  apply ha
  rw [← mean_single, mean_pick xs hw]
  split_ifs with hzero hdefault
  · exact absurd hdefault.symm hnone.2
  · rfl
  · apply Finset.sum_eq_zero
    intro i hi
    have hi : i < xs.length := Finset.mem_range.mp hi
    rw [List.getD_eq_getElem _ _ hi, if_neg, mul_zero]
    rintro rfl
    exact hnone.1 (List.getElem_mem hi)

theorem pick_perm {xs ys : List α} (h : xs.Perm ys) {g : α → ℝ≥0∞} (hg : ∀ a, g a ≠ ⊤) (default : α) :
    pick xs (fun i => g (xs.getD i default)) default = pick ys (fun i => g (ys.getD i default)) default := by
  apply ext_mean
  intro f _
  have hmean : ∀ zs : List α, ∀ total : ℝ≥0∞, ∑ i ∈ Finset.range zs.length,
      g (zs.getD i default) / total * f (zs.getD i default) = (zs.map fun a => g a / total * f a).sum :=
    fun zs total => sum_range_getD_map zs default fun a => g a / total * f a
  rw [mean_pick xs fun i => hg _, mean_pick ys fun i => hg _, sum_range_getD_map xs default g,
    sum_range_getD_map ys default g, (h.map g).sum_eq, hmean xs, hmean ys, (h.map _).sum_eq]

end Tea.Laws

namespace Tea.Draw

open Laws
open scoped ENNReal

variable {α β : Type}

/-! ### Programs with laws -/

theorem hasLaw_pure (a : α) : (pure a : Draw ℝ α).HasLaw (PMF.pure a) := fun f => (mean_pure a f).symm

theorem HasLaw.bind {d : Draw ℝ α} {p : PMF α} (h : d.HasLaw p) {g : α → Draw ℝ β} {q : α → PMF β}
    (hg : ∀ a, p a ≠ 0 → (g a).HasLaw (q a)) : (d >>= g).HasLaw (p.bind q) := by
  intro f
  rw [expect_bind, h]
  refine Eq.trans ?_ (mean_bind p q f).symm
  exact mean_congr fun a ha => hg a ha f

theorem HasLaw.map {d : Draw ℝ α} {p : PMF α} (h : d.HasLaw p) (g : α → β) : (g <$> d).HasLaw (p.map g) := by
  intro f
  rw [expect_map, h]
  exact (mean_map g p f).symm

theorem HasLaw.unique {d : Draw ℝ α} {p q : PMF α} (hp : d.HasLaw p) (hq : d.HasLaw q) : p = q :=
  ext_mean fun f _ => (hp f).symm.trans (hq f)

/-- The results have a law within `ε` of `p`. -/
def LawWithin (ε : ℝ≥0∞) (d : Draw ℝ α) (p : PMF α) : Prop := ∃ q : PMF α, d.HasLaw q ∧ Within ε q p

end Tea.Draw
