import Mathlib.Algebra.BigOperators.Intervals
import Tea.Lib.Laws
/-!
# Paths that may end

A process in a state of `S` draws a letter, which ends the path if it is `none` and else moves the state. `program` draws
a path of at most `n` letters and `law` is its law, given the laws of the letters:

* a path has the product of the probabilities of its letters (`law_apply`);
* the law depends on the letters only in the states that are reached (`law_congr`);
* renaming states and letters renames the paths (`law_map`);
* letters whose laws are within `ε` give paths whose laws are within `n * ε` (`within_law`).
-/

namespace Tea.Paths

open Laws
open scoped ENNReal

variable {S A R : Type}

/-! ### The program and its law -/

/-- A path of at most `n` letters from state `s`. -/
def program (letter : S → Draw R (Option A)) (move : S → A → S) : (n : Nat) → S → Draw R (List A)
  | 0, _ => return []
  | n + 1, s => do
      match ← letter s with
      | none => return []
      | some a =>
          let rest ← program letter move n (move s a)
          return a :: rest

/-- The law of the path of at most `n` letters from state `s`. -/
noncomputable def law (next : S → PMF (Option A)) (move : S → A → S) : (n : Nat) → S → PMF (List A)
  | 0, _ => PMF.pure []
  | n + 1, s => (next s).bind fun
      | none => PMF.pure []
      | some a => (law next move n (move s a)).map (a :: ·)

variable {next next' : S → PMF (Option A)} {move : S → A → S}

/-! ### Probabilities -/

theorem map_cons_apply (p : PMF (List A)) (a : A) (as : List A) : p.map (a :: ·) (a :: as) = p as := by
  classical
  rw [PMF.map_apply, tsum_eq_single as]
  · rw [if_pos rfl]
  · intro bs hbs
    rw [if_neg]
    intro h
    exact hbs (List.cons.inj h).2.symm

theorem map_cons_apply_of_ne (p : PMF (List A)) {a : A} {as : List A} (h : ∀ bs, as ≠ a :: bs) :
    p.map (a :: ·) as = 0 := by
  classical
  rw [PMF.map_apply, ENNReal.tsum_eq_zero]
  exact fun bs => if_neg (h bs)

theorem law_succ_nil (n : Nat) (s : S) : law next move (n + 1) s [] = next s none := by
  rw [law, PMF.bind_apply, tsum_eq_single none]
  · show next s none * PMF.pure [] [] = _
    rw [PMF.pure_apply_self, mul_one]
  · rintro (_ | a) ha
    · exact absurd rfl ha
    · show next s (some a) * _ = 0
      rw [map_cons_apply_of_ne _ fun bs => (List.cons_ne_nil a bs).symm, mul_zero]

theorem law_succ_cons (n : Nat) (s : S) (a : A) (as : List A) :
    law next move (n + 1) s (a :: as) = next s (some a) * law next move n (move s a) as := by
  rw [law, PMF.bind_apply, tsum_eq_single (some a)]
  · exact congrArg _ (map_cons_apply _ a as)
  · rintro (_ | b) hb
    · show next s none * PMF.pure [] (a :: as) = 0
      rw [PMF.pure_apply_of_ne _ _ (List.cons_ne_nil a as), mul_zero]
    · show next s (some b) * _ = 0
      rw [map_cons_apply_of_ne _ fun bs h => hb (congrArg some (List.cons.inj h).1.symm), mul_zero]

/-- **The probability of a path** is the product over its letters, and over its end if it ends early. -/
theorem law_apply (n : Nat) (s : S) (as : List A) : law next move n s as =
    if as.length ≤ n then ∏ i ∈ Finset.range (min (as.length + 1) n), next ((as.take i).foldl move s) as[i]?
    else 0 := by
  induction n generalizing s as with
  | zero =>
      cases as with
      | nil => exact PMF.pure_apply_self []
      | cons a as => exact PMF.pure_apply_of_ne _ _ (List.cons_ne_nil a as)
  | succ n ih =>
      cases as with
      | nil =>
          rw [law_succ_nil, List.length_nil, if_pos (Nat.zero_le (n + 1)), Nat.min_eq_left (by omega),
            Finset.prod_range_one]
          rfl
      | cons a as =>
          rw [law_succ_cons, ih, List.length_cons, Nat.succ_min_succ, Finset.prod_range_succ', mul_comm]
          by_cases hlen : as.length ≤ n
          · rw [if_pos hlen, if_pos (Nat.succ_le_succ hlen)]
            rfl
          · rw [if_neg hlen, if_neg (fun h => hlen (Nat.le_of_succ_le_succ h)), zero_mul]

/-! ### Reached states -/

theorem inv_of_law_ne_zero {Inv : S → Prop} (hmove : ∀ s a, Inv s → next s (some a) ≠ 0 → Inv (move s a)) {n : Nat}
    {s : S} (hs : Inv s) {as : List A} (h : law next move n s as ≠ 0) (i : Nat) :
    Inv ((as.take i).foldl move s) := by
  induction n generalizing s as i with
  | zero =>
      cases as with
      | nil => rwa [List.take_nil]
      | cons a as => exact absurd (PMF.pure_apply_of_ne _ _ (List.cons_ne_nil a as)) h
  | succ n ih =>
      cases as with
      | nil => rwa [List.take_nil]
      | cons a as =>
          rw [law_succ_cons] at h
          cases i with
          | zero => exact hs
          | succ i => exact ih (hmove s a hs (left_ne_zero_of_mul h)) (right_ne_zero_of_mul h) i

theorem within_law_first {δ ε : ℝ≥0∞} {n : Nat} {s : S} (hfirst : Within δ (next s) (next' s))
    (hrest : ∀ a, next' s (some a) ≠ 0 → Within ε (law next move n (move s a)) (law next' move n (move s a))) :
    Within (δ + ε) (law next move (n + 1) s) (law next' move (n + 1) s) := by
  apply hfirst.bind
  rintro (_ | a) ha
  · exact (Within.refl _).mono zero_le
  · exact (hrest a ha).map (a :: ·)

/-- **The errors of the letters add up along the path.** `Inv` holds in every state that is reached. -/
theorem within_law {ε : ℝ≥0∞} {Inv : S → Prop} (hstep : ∀ s, Inv s → Within ε (next s) (next' s))
    (hmove : ∀ s a, Inv s → next' s (some a) ≠ 0 → Inv (move s a)) (n : Nat) (s : S) (hs : Inv s) :
    Within (n * ε) (law next move n s) (law next' move n s) := by
  induction n generalizing s with
  | zero =>
      rw [Nat.cast_zero, zero_mul]
      exact Within.refl _
  | succ n ih =>
      rw [Nat.cast_succ, add_mul, one_mul, add_comm]
      exact within_law_first (hstep s hs) fun a ha => ih (move s a) (hmove s a hs ha)

theorem law_congr {Inv : S → Prop} (hstep : ∀ s, Inv s → next s = next' s)
    (hmove : ∀ s a, Inv s → next' s (some a) ≠ 0 → Inv (move s a)) (n : Nat) (s : S) (hs : Inv s) :
    law next move n s = law next' move n s := by
  have hzero : ∀ s, Inv s → Within 0 (next s) (next' s) := by
    intro s hs
    rw [hstep s hs]
    exact Within.refl _
  apply Within.eq_of_zero
  rw [← mul_zero (n : ℝ≥0∞)]
  exact within_law hzero hmove n s hs

theorem law_map {S' A' : Type} {next' : S' → PMF (Option A')} {move' : S' → A' → S'} (f : S → S') (g : A → A')
    {Inv : S → Prop} (hnext : ∀ s, Inv s → next' (f s) = (next s).map (Option.map g))
    (hmove : ∀ s a, Inv s → next s (some a) ≠ 0 → Inv (move s a) ∧ move' (f s) (g a) = f (move s a)) (n : Nat) (s : S)
    (hs : Inv s) : law next' move' n (f s) = (law next move n s).map (List.map g) := by
  induction n generalizing s with
  | zero => exact (PMF.pure_map (List.map g) []).symm
  | succ n ih =>
      apply ext_mean
      intro test _
      rw [law, hnext s hs, mean_bind, mean_map, mean_map (List.map g), law, mean_bind]
      apply mean_congr
      rintro (_ | a) ha
      · show mean (PMF.pure []) test = mean (PMF.pure []) _
        rw [mean_pure, mean_pure]
        rfl
      · obtain ⟨hinv, heq⟩ := hmove s a hs ha
        show mean ((law next' move' n (move' (f s) (g a))).map (g a :: ·)) test =
          mean ((law next move n (move s a)).map (a :: ·)) fun as => test (as.map g)
        rw [mean_map, mean_map, heq, ih _ hinv, mean_map]
        rfl

theorem program_hasLaw {letter : S → Draw ℝ (Option A)} {Inv : S → Prop}
    (hstep : ∀ s, Inv s → (letter s).HasLaw (next s))
    (hmove : ∀ s a, Inv s → next s (some a) ≠ 0 → Inv (move s a)) (n : Nat) (s : S) (hs : Inv s) :
    (program letter move n s).HasLaw (law next move n s) := by
  induction n generalizing s with
  | zero => exact Draw.hasLaw_pure []
  | succ n ih =>
      apply (hstep s hs).bind
      rintro (_ | a) ha
      · exact Draw.hasLaw_pure []
      · show (do let rest ← program letter move n (move s a); return a :: rest).HasLaw _
        rw [bind_pure_comp]
        exact (ih (move s a) (hmove s a hs ha)).map (a :: ·)

end Tea.Paths
