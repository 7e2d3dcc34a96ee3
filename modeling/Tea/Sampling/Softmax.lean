import Mathlib.Analysis.SpecialFunctions.Exp
import Tea.Sampling.Node2Vec
/-!
# Exponential weights are a softmax

`ExponentialBias` weighs an edge at time `t` with `exp ((t - tMax) * scale)`, where the pivot `tMax` and the scale are those
of the vertex. The pivot cancels in every quotient by a sum of weights (`exp_shift_div`), so relative to any set of
candidates the weights are the softmax of the times with the temperature `softmaxScale`, seen from any reference time.
-/

namespace Tea

open Layout Arith Finset

/-- The factor of the times in the softmax. -/
noncomputable def softmaxScale (timescaleBound : ℝ) (ts : List Int) : ℝ :=
  let span : ℝ := (ts.getD (ts.length - 1) 0 : ℝ) - (ts.getD 0 0 : ℝ)
  if 0 < timescaleBound ∧ 0 < span then timescaleBound / span else 1

theorem softmaxScale_pos (timescaleBound : ℝ) (ts : List Int) : 0 < softmaxScale timescaleBound ts := by
  unfold softmaxScale
  dsimp only
  split_ifs with h
  · exact div_pos h.1 h.2
  · exact one_pos

theorem exp_shift_div (s p c : ℝ) (x : Nat → ℝ) (G i : Nat) :
    Real.exp (s * (x i - p)) / ∑ j ∈ range G, Real.exp (s * (x j - p)) =
      Real.exp (s * (x i - c)) / ∑ j ∈ range G, Real.exp (s * (x j - c)) := by
  have hshift : ∀ j, Real.exp (s * (x j - p)) = Real.exp (s * (x j - c)) * Real.exp (s * (c - p)) := by
    intro j
    rw [← Real.exp_add]
    congr 1
    ring
  simp only [hshift]
  rw [← Finset.sum_mul]
  exact mul_div_mul_right _ _ (Real.exp_pos _).ne'

theorem getD_le_getD {ts : List Int} (hsorted : ts.Pairwise (· ≤ ·)) {i j : Nat} (hij : i ≤ j) (hj : j < ts.length) :
    ts.getD i 0 ≤ ts.getD j 0 := by
  rw [List.getD_eq_getElem _ _ (hij.trans_lt hj), List.getD_eq_getElem _ _ hj]
  rcases hij.eq_or_lt with rfl | hlt
  · exact le_rfl
  · exact List.pairwise_iff_getElem.mp hsorted i j _ hj hlt

section weights

variable {exp : ℝ → ℝ} {self : ExponentialBias ℝ} {ts : List Int} (hne : ts ≠ []) (hsorted : ts.Pairwise (· ≤ ·))

include hne in
theorem computePerVertexParams_eq : self.computePerVertexParams ts =
    let span : ℝ := (ts.getD (ts.length - 1) 0 : ℝ) - (ts.getD 0 0 : ℝ)
    ⟨(ts.getD (ts.length - 1) 0 : ℝ),
      if span ≤ 0 then 0 else if 0 < self.timescaleBound then self.timescaleBound / span else 1⟩ := by
  unfold ExponentialBias.computePerVertexParams
  rw [if_neg (by simpa using hne)]
  simp only [le_exact, lt_exact, ofInt_exact, decide_eq_true_eq]
  split_ifs <;> rfl

theorem getD_fullWeights_params {i : Nat} (hi : i < ts.length) : ((self.toBias exp).fullWeights ts).getD i 0 =
    exp (((ts.getD i 0 : ℝ) - (self.computePerVertexParams ts).tPivot) * (self.computePerVertexParams ts).scale) :=
  Bias.getD_fullWeights_ofEdgeWeight hi 0

include hsorted in
/-- A weight, with the scale of the softmax: where the code takes scale zero, all times are the newest one. -/
theorem getD_fullWeights {i : Nat} (hi : i < ts.length) : ((self.toBias exp).fullWeights ts).getD i 0 =
    exp (softmaxScale self.timescaleBound ts * ((ts.getD i 0 : ℝ) - (ts.getD (ts.length - 1) 0 : ℝ))) := by
  have hne : ts ≠ [] := List.length_pos_iff.mp (by omega)
  have hfirst : (ts.getD 0 0 : ℝ) ≤ (ts.getD i 0 : ℝ) := by exact_mod_cast getD_le_getD hsorted (Nat.zero_le i) hi
  have hlast : (ts.getD i 0 : ℝ) ≤ (ts.getD (ts.length - 1) 0 : ℝ) := by
    exact_mod_cast getD_le_getD hsorted (Nat.le_sub_one_of_lt hi) (by omega)
  rw [getD_fullWeights_params hi, computePerVertexParams_eq hne]
  unfold softmaxScale
  dsimp only
  by_cases hspan : (ts.getD (ts.length - 1) 0 : ℝ) - (ts.getD 0 0 : ℝ) ≤ 0
  · have hnewest : (ts.getD i 0 : ℝ) - (ts.getD (ts.length - 1) 0 : ℝ) = 0 := by linarith
    rw [hnewest, zero_mul, mul_zero]
  · rw [if_neg hspan, mul_comm]
    push Not at hspan
    simp only [hspan, and_true]

include hsorted in
theorem getD_fullWeights_of_equal (hall : ∀ t ∈ ts, t = ts.getD 0 0) {i : Nat} (hi : i < ts.length) :
    ((self.toBias Real.exp).fullWeights ts).getD i 0 = 1 := by
  have htime : ∀ k < ts.length, ts.getD k 0 = ts.getD 0 0 := by
    intro k hk
    rw [List.getD_eq_getElem _ _ hk]
    exact hall _ (List.getElem_mem hk)
  rw [getD_fullWeights hsorted hi, htime i hi, htime (ts.length - 1) (by omega), sub_self, mul_zero, Real.exp_zero]

include hsorted in
theorem softmaxScale_mul_nonpos {i : Nat} (hi : i < ts.length) :
    softmaxScale self.timescaleBound ts * ((ts.getD i 0 : ℝ) - (ts.getD (ts.length - 1) 0 : ℝ)) ≤ 0 := by
  have hlast : (ts.getD i 0 : ℝ) ≤ (ts.getD (ts.length - 1) 0 : ℝ) := by
    exact_mod_cast getD_le_getD hsorted (Nat.le_sub_one_of_lt hi) (by omega)
  exact mul_nonpos_of_nonneg_of_nonpos (softmaxScale_pos _ _).le (by linarith)

end weights

/-! ### The weights of a vertex -/

/-- The weights that `bias` gives to ascending times are a softmax, on the whole list and on every prefix and slice. -/
structure SoftmaxWeights {P : Type} (timescaleBound : ℝ) (bias : Bias ℝ P) (ts : List Int) : Prop where
  /-- A slice gets its part of the weights, whatever start position and buffer the call is given. -/
  slices : ∀ pos len, pos + len ≤ ts.length → ∀ (sliceStartPos : Nat) (out : List ℝ), out.length = len →
    bias.computeWeights (slice ts pos len) (bias.computePerVertexParams ts) sliceStartPos out =
      slice (bias.fullWeights ts) pos len
  softmax : ∀ G, 1 ≤ G → G ≤ ts.length → ∀ (c : ℝ) (i : Nat), i < G →
    (bias.fullWeights ts).getD i 0 / ∑ j ∈ range G, (bias.fullWeights ts).getD j 0 =
      Real.exp (softmaxScale timescaleBound ts * ((ts.getD i 0 : ℝ) - c)) /
        ∑ j ∈ range G, Real.exp (softmaxScale timescaleBound ts * ((ts.getD j 0 : ℝ) - c))
  unit : ∀ x ∈ bias.fullWeights ts, 0 < x ∧ x ≤ 1
  newest : (bias.fullWeights ts).getD (ts.length - 1) 0 = 1
  mono : ∀ i < ts.length, ∀ j < ts.length, ts.getD i 0 ≤ ts.getD j 0 →
    (bias.fullWeights ts).getD i 0 ≤ (bias.fullWeights ts).getD j 0
  ties : ∀ i < ts.length, ∀ j < ts.length, ts.getD i 0 = ts.getD j 0 →
    (bias.fullWeights ts).getD i 0 = (bias.fullWeights ts).getD j 0
  uniform : (∀ t ∈ ts, t = ts.getD 0 0) → ∀ G, 1 ≤ G → G ≤ ts.length → ∀ i < G,
    (bias.fullWeights ts).getD i 0 / ∑ j ∈ range G, (bias.fullWeights ts).getD j 0 = 1 / G

theorem ExponentialBias.softmaxWeights (self : ExponentialBias ℝ) {ts : List Int} (hne : ts ≠ [])
    (hsorted : ts.Pairwise (· ≤ ·)) : SoftmaxWeights self.timescaleBound (self.toBias Real.exp) ts where
  slices pos len hlen sliceStartPos out hout := by
    have hslice : out.length = (slice ts pos len).length := by rw [hout, length_slice hlen]
    rw [Bias.computeWeights_eq _ _ _ hslice, ← self.toBias_restricts Real.exp ts pos len hlen]
    rw [ExponentialBias.toBias, Bias.weights_ofEdgeWeight, Bias.weights_ofEdgeWeight]
  softmax G hG hle c i hi := by
    have hsum : ∑ j ∈ range G, ((self.toBias Real.exp).fullWeights ts).getD j 0 = ∑ j ∈ range G,
        Real.exp (softmaxScale self.timescaleBound ts * ((ts.getD j 0 : ℝ) - (ts.getD (ts.length - 1) 0 : ℝ))) :=
      Finset.sum_congr rfl fun j hj => getD_fullWeights hsorted (by have := mem_range.mp hj; omega)
    rw [hsum, getD_fullWeights hsorted (by omega : i < ts.length)]
    exact exp_shift_div _ _ c (fun j => (ts.getD j 0 : ℝ)) G i
  unit x hx := by
    obtain ⟨i, hi, rfl⟩ := List.mem_iff_getElem.mp hx
    have hi' : i < ts.length := by rwa [Bias.length_fullWeights] at hi
    rw [← List.getD_eq_getElem _ 0 hi, getD_fullWeights hsorted hi', Real.exp_le_one_iff]
    exact ⟨Real.exp_pos _, softmaxScale_mul_nonpos hsorted hi'⟩
  newest := by
    have hpos : 0 < ts.length := List.length_pos_iff.mpr hne
    rw [getD_fullWeights hsorted (by omega), sub_self, mul_zero, Real.exp_zero]
  mono i hi j hj hij := by
    have htimes : (ts.getD i 0 : ℝ) ≤ (ts.getD j 0 : ℝ) := by exact_mod_cast hij
    rw [getD_fullWeights hsorted hi, getD_fullWeights hsorted hj]
    apply Real.exp_le_exp.mpr
    exact mul_le_mul_of_nonneg_left (by linarith) (softmaxScale_pos _ _).le
  ties i hi j hj hij := by
    rw [getD_fullWeights hsorted hi, getD_fullWeights hsorted hj, hij]
  uniform hall G hG hle i hi := by
    have hone : ∀ j < G, ((self.toBias Real.exp).fullWeights ts).getD j 0 = 1 := fun j hj =>
      getD_fullWeights_of_equal hsorted hall (by omega)
    have hsum : ∑ j ∈ range G, ((self.toBias Real.exp).fullWeights ts).getD j 0 = G := by
      rw [Finset.sum_congr rfl fun j hj => hone j (mem_range.mp hj), sum_const, card_range, nsmul_eq_mul, mul_one]
    rw [hsum, hone i hi]

/-- **The weights of `ExponentialBias`, and so those of `Node2VecBias`, are a softmax of the times.** -/
theorem exponential_softmax {ts : List Int} (hne : ts ≠ []) (hsorted : ts.Pairwise (· ≤ ·)) :
    (∀ bias : ExponentialBias ℝ, SoftmaxWeights bias.timescaleBound (bias.toBias Real.exp) ts) ∧
      ∀ bias : Node2VecBias ℝ, SoftmaxWeights bias.timescaleBound (bias.toBias Real.exp) ts :=
  ⟨fun bias => bias.softmaxWeights hne hsorted,
    fun bias => ExponentialBias.softmaxWeights { timescaleBound := bias.timescaleBound } hne hsorted⟩

/-- The default mode, with a tie. -/
theorem exponential_softmax_three : (((({} : ExponentialBias ℝ).toBias Real.exp).fullWeights [3, 3, 5]).getD 0 0 =
    ((({} : ExponentialBias ℝ).toBias Real.exp).fullWeights [3, 3, 5]).getD 1 0) :=
  ((exponential_softmax (by decide : [(3 : Int), 3, 5] ≠ []) (by decide)).1 {}).ties 0 (by decide) 1 (by decide) rfl

end Tea
