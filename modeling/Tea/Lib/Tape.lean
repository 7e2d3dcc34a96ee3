import Tea.Lib.Paths
/-!
# Programs on a tape of random words

A generator produces words and computes its answers from them (`Decoder`), one word for each request. On a tape of
independent words a program has a law (`tapeLaw`), and a program of at most `n` requests reads no more than `n` words
(`map_run_tapes`).

A decoder has a finite resolution: a word hits an interval, a side of a coin or an index with a probability that is off by
a little (`Decoder.Resolves`). What this does to a program is computed request by request (`Resolves.bind`):

* a draw that only matters up to `m` consecutive intervals costs `m` times the resolution (`resolves_steps`);
* a coin costs its resolution, and the error of each side in proportion to how often it shows (`resolves_coin`);
* an index below `n` costs `n` times the resolution (`resolves_index`).

The errors of the letters of a path add up as in `Paths.within_law`.
-/

namespace Tea

open Laws
open scoped ENNReal

variable {W R S A α β : Type}

/-- How the words of a generator answer the requests. -/
structure Decoder (W R : Type) where
  u01 : W → R
  f01 : W → R
  below : W → Nat → Nat

/-- The generator that reads its words from a tape. -/
def Decoder.generator [Inhabited W] (dec : Decoder W R) : Generator R (List W) where
  nextU01 tape := (dec.u01 tape.headI, tape.tail)
  nextF01 tape := (dec.f01 tape.headI, tape.tail)
  nextBelow tape n := (dec.below tape.headI n, tape.tail)

/-- Tapes of `n` independent words of law `word`. -/
noncomputable def tapes (word : PMF W) : Nat → PMF (List W)
  | 0 => PMF.pure []
  | n + 1 => word.bind fun x => (tapes word n).map (x :: ·)

namespace Draw

/-- The program makes at most `n` requests. -/
def AtMost : Draw R α → Nat → Prop
  | ret _, _ => True
  | u01 next, n => 0 < n ∧ ∀ u, (next u).AtMost (n - 1)
  | f01 next, n => 0 < n ∧ ∀ c, (next c).AtMost (n - 1)
  | index _ next, n => 0 < n ∧ ∀ i, (next i).AtMost (n - 1)

/-- The law of the results on a tape of words of law `word`. -/
noncomputable def tapeLaw (word : PMF W) (dec : Decoder W R) : Draw R α → PMF α
  | ret a => PMF.pure a
  | u01 next => word.bind fun x => (next (dec.u01 x)).tapeLaw word dec
  | f01 next => word.bind fun x => (next (dec.f01 x)).tapeLaw word dec
  | index n next => word.bind fun x => (next (dec.below x n)).tapeLaw word dec

/-! ### Counting requests -/

section count

variable {m n : Nat}

theorem atMost_pure (a : α) (n : Nat) : (pure a : Draw R α).AtMost n := trivial

theorem nextU01_atMost : (nextU01 : Draw R R).AtMost 1 := ⟨Nat.one_pos, fun _ => trivial⟩

theorem AtMost.mono {d : Draw R α} (h : d.AtMost m) (hle : m ≤ n) : d.AtMost n := by
  induction d generalizing m n with
  | ret a => trivial
  | u01 next ih => exact ⟨h.1.trans_le hle, fun u => ih u (h.2 u) (by omega)⟩
  | f01 next ih => exact ⟨h.1.trans_le hle, fun c => ih c (h.2 c) (by omega)⟩
  | index k next ih => exact ⟨h.1.trans_le hle, fun i => ih i (h.2 i) (by omega)⟩

theorem AtMost.bind {d : Draw R α} (h : d.AtMost m) {g : α → Draw R β} (hg : ∀ a, (g a).AtMost n) :
    (d >>= g).AtMost (m + n) := by
  induction d generalizing m with
  | ret a => exact (hg a).mono (by omega)
  | u01 next ih =>
      refine ⟨by have := h.1; omega, fun u => (ih u (h.2 u)).mono ?_⟩
      have := h.1
      omega
  | f01 next ih =>
      refine ⟨by have := h.1; omega, fun c => (ih c (h.2 c)).mono ?_⟩
      have := h.1
      omega
  | index k next ih =>
      refine ⟨by have := h.1; omega, fun i => (ih i (h.2 i)).mono ?_⟩
      have := h.1
      omega

theorem AtMost.map {d : Draw R α} (h : d.AtMost m) (g : α → β) : (g <$> d).AtMost m := by
  rw [map_eq_pure_bind]
  exact h.bind (n := 0) fun a => atMost_pure (g a) 0

end count

/-! ### The law on a tape -/

section law

variable (word : PMF W) (dec : Decoder W R)

@[simp] theorem tapeLaw_pure (a : α) : (pure a : Draw R α).tapeLaw word dec = PMF.pure a := rfl

theorem tapeLaw_bind (d : Draw R α) (g : α → Draw R β) :
    (d >>= g).tapeLaw word dec = (d.tapeLaw word dec).bind fun a => (g a).tapeLaw word dec := by
  induction d with
  | ret a => exact (PMF.pure_bind a fun a => (g a).tapeLaw word dec).symm
  | u01 next ih =>
      show (word.bind fun x => (next (dec.u01 x) >>= g).tapeLaw word dec) = _
      rw [tapeLaw, PMF.bind_bind]
      exact congrArg word.bind (funext fun x => ih (dec.u01 x))
  | f01 next ih =>
      show (word.bind fun x => (next (dec.f01 x) >>= g).tapeLaw word dec) = _
      rw [tapeLaw, PMF.bind_bind]
      exact congrArg word.bind (funext fun x => ih (dec.f01 x))
  | index n next ih =>
      show (word.bind fun x => (next (dec.below x n) >>= g).tapeLaw word dec) = _
      rw [tapeLaw, PMF.bind_bind]
      exact congrArg word.bind (funext fun x => ih (dec.below x n))

theorem tapeLaw_map (d : Draw R α) (g : α → β) : (g <$> d).tapeLaw word dec = (d.tapeLaw word dec).map g := by
  rw [map_eq_pure_bind, tapeLaw_bind]
  rfl

/-- **Running on a tape that is long enough** has the law of the program. -/
theorem map_run_tapes [Inhabited W] {d : Draw R α} {n : Nat} (h : d.AtMost n) :
    (tapes word n).map (fun tape => (d.run dec.generator tape).1) = d.tapeLaw word dec := by
  have hcons : ∀ (n : Nat) (k : W → List W → α) , (tapes word (n + 1)).map (fun tape => k tape.headI tape.tail) =
      word.bind fun x => (tapes word n).map (k x) := by
    intro n k
    rw [tapes, PMF.map_bind]
    apply congrArg word.bind
    funext x
    rw [PMF.map_comp]
    rfl
  induction d generalizing n with
  | ret a => exact PMF.map_const _ a
  | u01 next ih =>
      obtain ⟨k, rfl⟩ := Nat.exists_eq_succ_of_ne_zero h.1.ne'
      refine (hcons k fun x tape => ((next (dec.u01 x)).run dec.generator tape).1).trans ?_
      exact congrArg word.bind (funext fun x => ih _ (h.2 _))
  | f01 next ih =>
      obtain ⟨k, rfl⟩ := Nat.exists_eq_succ_of_ne_zero h.1.ne'
      refine (hcons k fun x tape => ((next (dec.f01 x)).run dec.generator tape).1).trans ?_
      exact congrArg word.bind (funext fun x => ih _ (h.2 _))
  | index m next ih =>
      obtain ⟨k, rfl⟩ := Nat.exists_eq_succ_of_ne_zero h.1.ne'
      refine (hcons k fun x tape => ((next (dec.below x m)).run dec.generator tape).1).trans ?_
      exact congrArg word.bind (funext fun x => ih _ (h.2 _))

end law

/-- A generator whose answers are decoded from the words it produces runs a program as the tape of these words does. -/
theorem run_eq_tape {σ : Type} [Inhabited W] {gen : Generator R σ} {dec : Decoder W R} {next : σ → W × σ}
    (hu01 : ∀ s, gen.nextU01 s = (dec.u01 (next s).1, (next s).2))
    (hf01 : ∀ s, gen.nextF01 s = (dec.f01 (next s).1, (next s).2))
    (hbelow : ∀ s n, gen.nextBelow s n = (dec.below (next s).1 n, (next s).2)) {d : Draw R α} {n : Nat}
    (h : d.AtMost n) (s : σ) : (d.run gen s).1 =
      (d.run dec.generator ((List.range n).map fun i => (next ((fun s => (next s).2)^[i] s)).1)).1 := by
  have hcons : ∀ (n : Nat) (s : σ), (List.range (n + 1)).map (fun i => (next ((fun s => (next s).2)^[i] s)).1) =
      (next s).1 :: (List.range n).map fun i => (next ((fun s => (next s).2)^[i] (next s).2)).1 := by
    intro n s
    rw [List.range_succ_eq_map, List.map_cons, List.map_map]
    rfl
  induction d generalizing n s with
  | ret a => rfl
  | u01 k ih =>
      obtain ⟨m, rfl⟩ := Nat.exists_eq_succ_of_ne_zero h.1.ne'
      rw [hcons, run, hu01]
      exact ih _ (h.2 _) _
  | f01 k ih =>
      obtain ⟨m, rfl⟩ := Nat.exists_eq_succ_of_ne_zero h.1.ne'
      rw [hcons, run, hf01]
      exact ih _ (h.2 _) _
  | index b k ih =>
      obtain ⟨m, rfl⟩ := Nat.exists_eq_succ_of_ne_zero h.1.ne'
      rw [hcons, run, hbelow]
      exact ih _ (h.2 _) _

end Draw

/-! ### Resolution -/

/-- A number made from a word, compared with a threshold, is a coin that shows heads a little too often. -/
def Coins (word : PMF W) (g : W → ℝ) (ε : ℝ≥0∞) : Prop :=
  ∀ p, 0 ≤ p → p ≤ 1 → mean word (fun x => if g x < p then 1 else 0) ≤ ENNReal.ofReal p + ε ∧
    mean word (fun x => if g x < p then 0 else 1) ≤ ENNReal.ofReal (1 - p)

/-- How far the answers of a decoder are from uniform ones, for indices below bounds less than `N`. -/
structure Decoder.Resolution (word : PMF W) (dec : Decoder W ℝ) (N : Nat) (ε δ γ : ℝ≥0∞) : Prop where
  u01_mem : ∀ x, 0 ≤ dec.u01 x ∧ dec.u01 x < 1
  u01_coins : Coins word dec.u01 ε
  f01_coins : Coins word dec.f01 δ
  below_lt : ∀ x n, 0 < n → dec.below x n < n
  below : ∀ n i, i < n → n < N → mean word (fun x => if dec.below x n = i then 1 else 0) ≤ 1 / n + γ

theorem mean_heads_add_tails (word : PMF W) (g : W → ℝ) (p : ℝ) :
    mean word (fun x => if g x < p then 1 else 0) + mean word (fun x => if g x < p then 0 else 1) = 1 := by
  have hsides : ∀ x, (if g x < p then 1 else 0) + (if g x < p then 0 else 1) = (1 : ℝ≥0∞) := by
    intro x
    split_ifs
    · exact add_zero 1
    · exact zero_add 1
  rw [← mean_add, mean_congr fun x _ => hsides x, mean_const]

section coins

variable {word : PMF W} {g : W → ℝ} {ε : ℝ≥0∞} (hg : Coins word g ε)

include hg

theorem Coins.interval {a b : ℝ} (ha : 0 ≤ a) (hab : a ≤ b) (hb : b ≤ 1) :
    mean word (fun x => if a ≤ g x ∧ g x < b then 1 else 0) ≤ ENNReal.ofReal (b - a) + ε := by
  have hsplit : mean word (fun x => if a ≤ g x ∧ g x < b then 1 else 0) + mean word (fun x => if g x < a then 1 else 0) =
      mean word fun x => if g x < b then 1 else 0 := by
    rw [← mean_add]
    apply mean_congr
    intro x _
    rcases lt_or_ge (g x) a with hlt | hge
    · rw [if_neg (fun h => not_le.mpr hlt h.1), if_pos hlt, if_pos (hlt.trans_le hab), zero_add]
    · rw [if_neg (not_lt.mpr hge), add_zero]
      simp only [hge, true_and]
  have hheads : ENNReal.ofReal a ≤ mean word fun x => if g x < a then 1 else 0 := by
    apply (ENNReal.add_le_add_iff_right (ENNReal.ofReal_ne_top (r := 1 - a))).mp
    calc ENNReal.ofReal a + ENNReal.ofReal (1 - a) = 1 := by
          rw [← ENNReal.ofReal_add ha (by linarith), add_sub_cancel, ENNReal.ofReal_one]
      _ ≤ mean word (fun x => if g x < a then 1 else 0) + ENNReal.ofReal (1 - a) :=
          (mean_heads_add_tails word g a).symm.trans_le (add_le_add_right (hg a ha (hab.trans hb)).2 _)
  apply (ENNReal.add_le_add_iff_right (ENNReal.ofReal_ne_top (r := a))).mp
  calc mean word (fun x => if a ≤ g x ∧ g x < b then 1 else 0) + ENNReal.ofReal a
      ≤ mean word fun x => if g x < b then 1 else 0 := (add_le_add_right hheads _).trans_eq hsplit
    _ ≤ ENNReal.ofReal b + ε := (hg b (ha.trans hab) hb).1
    _ = ENNReal.ofReal (b - a) + ε + ENNReal.ofReal a := by
        rw [add_right_comm, ← ENNReal.ofReal_add (sub_nonneg.mpr hab) ha, sub_add_cancel]

theorem Coins.mean_le {p : ℝ} (hp : 0 ≤ p) (hp1 : p ≤ 1) {M N A B η θ : ℝ≥0∞} (hM : M ≤ 1) (hA : M ≤ A + η)
    (hB : N ≤ B + θ) : mean word (fun x => if g x < p then M else N) ≤
      ENNReal.ofReal p * A + ENNReal.ofReal (1 - p) * B +
        (ε + (ENNReal.ofReal p * η + ENNReal.ofReal (1 - p) * θ)) := by
  have hsplit : ∀ x, (if g x < p then M else N) = (if g x < p then 1 else 0) * M + (if g x < p then 0 else 1) * N := by
    intro x
    split_ifs
    · rw [one_mul, zero_mul, add_zero]
    · rw [one_mul, zero_mul, zero_add]
  obtain ⟨hheads, htails⟩ := hg p hp hp1
  rw [mean_congr fun x _ => hsplit x, mean_add, mean_mul, mean_mul]
  calc mean word (fun x => if g x < p then 1 else 0) * M + mean word (fun x => if g x < p then 0 else 1) * N
      ≤ (ENNReal.ofReal p + ε) * M + ENNReal.ofReal (1 - p) * N :=
        add_le_add (mul_le_mul_left hheads _) (mul_le_mul_left htails _)
    _ ≤ ENNReal.ofReal p * (A + η) + ε + ENNReal.ofReal (1 - p) * (B + θ) := by
        rw [add_mul]
        exact add_le_add (add_le_add (mul_le_mul_right hA _) (mul_le_of_le_one_right' hM)) (mul_le_mul_right hB _)
    _ = _ := by ring

end coins

theorem exists_step {c : Nat → ℝ} {m : Nat} {r : ℝ} (hlo : c 0 ≤ r) (hhi : r < c m) :
    ∃ j < m, c j ≤ r ∧ r < c (j + 1) := by
  induction m with
  | zero => exact absurd hlo (not_le.mpr hhi)
  | succ m ih =>
      rcases lt_or_ge r (c m) with hlt | hge
      · obtain ⟨j, hj, h⟩ := ih hlt
        exact ⟨j, hj.trans (Nat.lt_succ_self m), h⟩
      · exact ⟨m, Nat.lt_succ_self m, hge, hhi⟩

namespace Draw

theorem expect_le_one (d : Draw ℝ α) {f : α → ℝ≥0∞} (hf : ∀ a, f a ≤ 1) : d.expect f ≤ 1 := by
  have hunit : ∀ F : ℝ → ℝ≥0∞, (∀ x, F x ≤ 1) → ∫⁻ x in Set.Ico (0 : ℝ) 1, F x ≤ 1 := by
    intro F hF
    apply (MeasureTheory.lintegral_mono hF).trans
    rw [MeasureTheory.lintegral_const, MeasureTheory.Measure.restrict_apply_univ, Real.volume_Ico, sub_zero,
      ENNReal.ofReal_one, one_mul]
  induction d with
  | ret a => exact hf a
  | u01 next ih => exact hunit _ ih
  | f01 next ih => exact hunit _ ih
  | index n next ih =>
      apply ENNReal.div_le_of_le_mul
      apply (Finset.sum_le_sum fun i _ => ih i).trans_eq
      rw [Finset.sum_const, Finset.card_range, nsmul_eq_mul, mul_comm]

/-- On a tape no test has a mean that is off by more than `η`. -/
def Resolves (word : PMF W) (dec : Decoder W ℝ) (η : ℝ≥0∞) (d : Draw ℝ α) : Prop :=
  ∀ f : α → ℝ≥0∞, (∀ a, f a ≤ 1) → mean (d.tapeLaw word dec) f ≤ d.expect f + η

section resolves

variable {word : PMF W} {dec : Decoder W ℝ} {η θ : ℝ≥0∞}

theorem resolves_pure (a : α) : Resolves word dec 0 (pure a : Draw ℝ α) := by
  intro f _
  rw [tapeLaw_pure, mean_pure, add_zero]
  exact le_rfl

theorem Resolves.mono {d : Draw ℝ α} (h : Resolves word dec η d) (hle : η ≤ θ) : Resolves word dec θ d :=
  fun f hf => (h f hf).trans (add_le_add_right hle _)

theorem Resolves.bind {d : Draw ℝ α} (h : Resolves word dec η d) {g : α → Draw ℝ β}
    (hg : ∀ a, Resolves word dec θ (g a)) : Resolves word dec (η + θ) (d >>= g) := by
  intro f hf
  rw [tapeLaw_bind, mean_bind, expect_bind]
  calc mean (d.tapeLaw word dec) (fun a => mean ((g a).tapeLaw word dec) f)
      ≤ mean (d.tapeLaw word dec) (fun a => (g a).expect f + θ) := mean_mono fun a _ => hg a f hf
    _ = mean (d.tapeLaw word dec) (fun a => (g a).expect f) + θ := by rw [mean_add, mean_const]
    _ ≤ d.expect (fun a => (g a).expect f) + η + θ := add_le_add_left (h _ fun a => expect_le_one _ hf) θ
    _ = d.expect (fun a => (g a).expect f) + (η + θ) := add_assoc _ _ _

theorem Resolves.map {d : Draw ℝ α} (h : Resolves word dec η d) (g : α → β) : Resolves word dec η (g <$> d) := by
  rw [map_eq_pure_bind, ← add_zero η]
  exact h.bind fun a => resolves_pure (g a)

theorem Resolves.within {d : Draw ℝ α} (h : Resolves word dec η d) {p : PMF α} (hp : d.HasLaw p) :
    Within η (d.tapeLaw word dec) p := by
  intro f hf
  rw [show mean p f = d.expect f from (hp f).symm]
  exact h f hf

end resolves

section ite

variable {next : ℝ → Draw ℝ α} {p : ℝ} {A B : Draw ℝ α} (hnext : ∀ c, next c = if c < p then A else B) (c : ℝ)
  (f : α → ℝ≥0∞)

include hnext

theorem expect_ite : (next c).expect f = if c < p then A.expect f else B.expect f := by
  rw [hnext]
  exact apply_ite (fun d : Draw ℝ α => d.expect f) _ _ _

theorem mean_tapeLaw_ite {word : PMF W} {dec : Decoder W ℝ} : mean ((next c).tapeLaw word dec) f =
    if c < p then mean (A.tapeLaw word dec) f else mean (B.tapeLaw word dec) f := by
  rw [hnext]
  exact apply_ite (fun d : Draw ℝ α => mean (d.tapeLaw word dec) f) _ _ _

end ite

section requests

variable {word : PMF W} {dec : Decoder W ℝ} {N : Nat} {ε δ γ η : ℝ≥0∞} (hdec : dec.Resolution word N ε δ γ)

include hdec

theorem resolves_index {n : Nat} (hn : 0 < n) (hN : n < N) {next : Nat → Draw ℝ α}
    (hnext : ∀ i < n, Resolves word dec η (next i)) : Resolves word dec (n * γ + η) (index n next) := by
  intro f hf
  have hsplit : ∀ x, mean ((next (dec.below x n)).tapeLaw word dec) f =
      ∑ i ∈ Finset.range n, (if dec.below x n = i then 1 else 0) * mean ((next i).tapeLaw word dec) f := by
    intro x
    rw [Finset.sum_eq_single (dec.below x n)]
    · rw [if_pos rfl, one_mul]
    · intro i _ hne
      rw [if_neg hne.symm, zero_mul]
    · intro hnot
      exact absurd (Finset.mem_range.mpr (hdec.below_lt x n hn)) hnot
  have hn0 : (n : ℝ≥0∞) ≠ 0 := by exact_mod_cast hn.ne'
  rw [tapeLaw, mean_bind, mean_congr fun x _ => hsplit x, mean_sum, expect_index]
  calc ∑ i ∈ Finset.range n, mean word (fun x => (if dec.below x n = i then 1 else 0) * mean ((next i).tapeLaw word dec) f)
      ≤ ∑ i ∈ Finset.range n, (1 / (n : ℝ≥0∞) * (next i).expect f + (1 / n * η + γ)) := by
        apply Finset.sum_le_sum
        intro i hi
        have hi := Finset.mem_range.mp hi
        have hle : mean ((next i).tapeLaw word dec) f ≤ 1 := mean_le_one hf
        rw [mean_mul]
        calc mean word (fun x => if dec.below x n = i then 1 else 0) * mean ((next i).tapeLaw word dec) f
            ≤ (1 / n + γ) * mean ((next i).tapeLaw word dec) f := mul_le_mul_left (hdec.below n i hi hN) _
          _ = 1 / n * mean ((next i).tapeLaw word dec) f + γ * mean ((next i).tapeLaw word dec) f := add_mul _ _ _
          _ ≤ 1 / n * ((next i).expect f + η) + γ :=
              add_le_add (mul_le_mul_right (hnext i hi f hf) _) (mul_le_of_le_one_right' hle)
          _ = 1 / n * (next i).expect f + (1 / n * η + γ) := by rw [mul_add, add_assoc]
    _ = (∑ i ∈ Finset.range n, (next i).expect f) / n + (n * γ + η) := by
        rw [Finset.sum_add_distrib, ← Finset.mul_sum, Finset.sum_const, Finset.card_range, nsmul_eq_mul, mul_add,
          ← mul_assoc, mul_one_div, ENNReal.div_self hn0 (ENNReal.natCast_ne_top n), one_mul, one_div,
          ENNReal.div_eq_inv_mul, add_comm η]

theorem resolves_coin {p : ℝ} (hp : 0 ≤ p) (hp1 : p ≤ 1) (next : ℝ → Draw ℝ α) {A B : Draw ℝ α}
    (hnext : ∀ c, next c = if c < p then A else B) {θ : ℝ≥0∞} (hA : Resolves word dec η A)
    (hB : Resolves word dec θ B) :
    Resolves word dec (δ + (ENNReal.ofReal p * η + ENNReal.ofReal (1 - p) * θ)) (f01 next) := by
  intro f hf
  rw [tapeLaw, mean_bind, expect_f01, MeasureTheory.lintegral_congr fun c => expect_ite hnext c f,
    lintegral_coin hp hp1, mean_congr fun x _ => mean_tapeLaw_ite hnext (dec.f01 x) f]
  exact hdec.f01_coins.mean_le hp hp1 (mean_le_one hf) (hA f hf) (hB f hf)

theorem resolves_coin_u01 {p : ℝ} (hp : 0 ≤ p) (hp1 : p ≤ 1) (next : ℝ → Draw ℝ α) {A B : Draw ℝ α}
    (hnext : ∀ c, next c = if c < p then A else B) {θ : ℝ≥0∞} (hA : Resolves word dec η A)
    (hB : Resolves word dec θ B) :
    Resolves word dec (ε + (ENNReal.ofReal p * η + ENNReal.ofReal (1 - p) * θ)) (u01 next) := by
  intro f hf
  rw [tapeLaw, mean_bind, expect_u01, MeasureTheory.lintegral_congr fun c => expect_ite hnext c f,
    lintegral_coin hp hp1, mean_congr fun x _ => mean_tapeLaw_ite hnext (dec.u01 x) f]
  exact hdec.u01_coins.mean_le hp hp1 (mean_le_one hf) (hA f hf) (hB f hf)

/-- A double that only matters up to the steps of a staircase. -/
theorem resolves_steps {c : Nat → ℝ} (hc : Monotone c) {m : Nat} {s : ℝ} (hs : 0 < s) (hzero : c 0 = 0) (hend : c m = s)
    (next : ℝ → Draw ℝ α) (piece : Nat → Draw ℝ α) (hpiece : ∀ j < m, ∀ r, c j ≤ r → r < c (j + 1) → next r = piece j)
    (hη : ∀ j < m, c j < c (j + 1) → Resolves word dec η (piece j)) :
    Resolves word dec (m * ε + η) (u01 fun u => next (u * s)) := by
  intro f hf
  set share : Nat → ℝ≥0∞ := fun j => ENNReal.ofReal ((c (j + 1) - c j) / s) with hshare
  set M : Nat → ℝ≥0∞ := fun j => mean ((piece j).tapeLaw word dec) f with hM
  have hexpect : (u01 fun u => next (u * s)).expect f = ∑ j ∈ Finset.range m, share j * (piece j).expect f :=
    lintegral_scaled_steps hc hs hzero hend (fun r => (next r).expect f) (fun j => (piece j).expect f)
      fun j hj r hlo hhi => by rw [hpiece j hj r hlo hhi]
  have hshares : ∑ j ∈ Finset.range m, share j = 1 := by
    have h := lintegral_scaled_steps hc hs hzero hend (fun _ => 1) (fun _ => 1) fun j _ r _ _ => rfl
    rw [MeasureTheory.lintegral_const, MeasureTheory.Measure.restrict_apply_univ, Real.volume_Ico, sub_zero,
      ENNReal.ofReal_one, one_mul] at h
    simpa only [mul_one] using h.symm
  -- a word falls on one of the steps
  have hstep : ∀ x, mean ((next (dec.u01 x * s)).tapeLaw word dec) f ≤ ∑ j ∈ Finset.range m,
      (if c j / s ≤ dec.u01 x ∧ dec.u01 x < c (j + 1) / s then 1 else 0) * M j := by
    intro x
    obtain ⟨hlo, hhi⟩ := hdec.u01_mem x
    obtain ⟨j, hj, hjlo, hjhi⟩ := exists_step (c := c) (m := m) (r := dec.u01 x * s)
      (by rw [hzero]; exact mul_nonneg hlo hs.le) (by rw [hend]; exact mul_lt_of_lt_one_left hs hhi)
    apply le_trans _ (Finset.single_le_sum (fun _ _ => zero_le) (Finset.mem_range.mpr hj))
    rw [if_pos ⟨(div_le_iff₀ hs).mpr hjlo, (lt_div_iff₀ hs).mpr hjhi⟩, one_mul, hpiece j hj _ hjlo hjhi]
  rw [hexpect, tapeLaw, mean_bind]
  calc mean word (fun x => mean ((next (dec.u01 x * s)).tapeLaw word dec) f)
      ≤ mean word (fun x => ∑ j ∈ Finset.range m,
          (if c j / s ≤ dec.u01 x ∧ dec.u01 x < c (j + 1) / s then 1 else 0) * M j) := mean_mono fun x _ => hstep x
    _ = ∑ j ∈ Finset.range m,
          mean word (fun x => if c j / s ≤ dec.u01 x ∧ dec.u01 x < c (j + 1) / s then 1 else 0) * M j := by
        rw [mean_sum]
        exact Finset.sum_congr rfl fun j _ => mean_mul _ _ _
    _ ≤ ∑ j ∈ Finset.range m, (share j * (piece j).expect f + (share j * η + ε)) := by
        apply Finset.sum_le_sum
        intro j hj
        have hj := Finset.mem_range.mp hj
        have hle : M j ≤ 1 := mean_le_one hf
        have hmass : mean word (fun x => if c j / s ≤ dec.u01 x ∧ dec.u01 x < c (j + 1) / s then 1 else 0) ≤
            share j + ε := by
          have h := hdec.u01_coins.interval (a := c j / s) (b := c (j + 1) / s) (div_nonneg (hzero ▸ hc (Nat.zero_le j)) hs.le)
            (div_le_div_of_nonneg_right (hc (Nat.le_succ j)) hs.le) (div_le_one_of_le₀ (hend ▸ hc hj) hs.le)
          rwa [← sub_div] at h
        apply (mul_le_mul_left hmass _).trans
        rw [add_mul, ← add_assoc, ← mul_add]
        apply add_le_add _ (mul_le_of_le_one_right' hle)
        rcases (hc (Nat.le_succ j)).eq_or_lt with hflat | hrise
        · have hnone : share j = 0 := by
            rw [hshare]
            dsimp only
            rw [← hflat, sub_self, zero_div, ENNReal.ofReal_zero]
          rw [hnone, zero_mul, zero_mul]
        · exact mul_le_mul_right (hη j hj hrise f hf) _
    _ = ∑ j ∈ Finset.range m, share j * (piece j).expect f + (m * ε + η) := by
        rw [Finset.sum_add_distrib, Finset.sum_add_distrib, ← Finset.sum_mul, hshares, one_mul, Finset.sum_const,
          Finset.card_range, nsmul_eq_mul, add_comm η]

end requests

end Draw

/-! ### Paths -/

namespace Paths

variable {letter : S → Draw R (Option A)} {move : S → A → S}

theorem program_atMost {k : Nat} (h : ∀ s, (letter s).AtMost k) (n : Nat) (s : S) :
    (program letter move n s).AtMost (n * k) := by
  induction n generalizing s with
  | zero => exact Draw.atMost_pure [] _
  | succ n ih =>
      rw [program, Nat.succ_mul, Nat.add_comm]
      apply (h s).bind
      rintro (_ | a)
      · exact Draw.atMost_pure [] _
      · exact (ih (move s a)).bind (n := 0) fun rest => Draw.atMost_pure (a :: rest) 0

theorem tapeLaw_program (word : PMF W) (dec : Decoder W R) (n : Nat) (s : S) :
    (program letter move n s).tapeLaw word dec = law (fun s => (letter s).tapeLaw word dec) move n s := by
  induction n generalizing s with
  | zero => rfl
  | succ n ih =>
      rw [program, law, Draw.tapeLaw_bind]
      congr 1
      funext a
      cases a with
      | none => rfl
      | some a =>
          show (program letter move n (move s a) >>= fun rest => pure (a :: rest)).tapeLaw word dec = _
          rw [bind_pure_comp, Draw.tapeLaw_map, ih]

end Paths

end Tea
