import Tea.Lib.Tape
/-!
# How many requests a program makes

`Draw.requests` counts the requests of a run. On a tape of independent words their mean is the `cost` of the program
(`mean_requests`), which is computed request by request: the cost of two parts is that of the first and the mean cost of
the second (`cost_bind`).
-/

namespace Tea

open Laws
open scoped ENNReal

variable {W R S A α β : Type}

namespace Draw

/-- The number of requests that the program makes of the generator. -/
def requests {σ : Type} (g : Generator R σ) : Draw R α → σ → Nat
  | ret _, _ => 0
  | u01 next, s => (next (g.nextU01 s).1).requests g (g.nextU01 s).2 + 1
  | f01 next, s => (next (g.nextF01 s).1).requests g (g.nextF01 s).2 + 1
  | index n next, s => (next (g.nextBelow s n).1).requests g (g.nextBelow s n).2 + 1

/-- The mean number of requests on a tape of words of law `word`. -/
noncomputable def cost (word : PMF W) (dec : Decoder W R) : Draw R α → ℝ≥0∞
  | ret _ => 0
  | u01 next => (mean word fun x => (next (dec.u01 x)).cost word dec) + 1
  | f01 next => (mean word fun x => (next (dec.f01 x)).cost word dec) + 1
  | index n next => (mean word fun x => (next (dec.below x n)).cost word dec) + 1

/-- With answers decoded from words the requests are those on the tape of these words. -/
theorem requests_eq_tape {σ : Type} [Inhabited W] {gen : Generator R σ} {dec : Decoder W R} {next : σ → W × σ}
    (hu01 : ∀ s, gen.nextU01 s = (dec.u01 (next s).1, (next s).2))
    (hf01 : ∀ s, gen.nextF01 s = (dec.f01 (next s).1, (next s).2))
    (hbelow : ∀ s n, gen.nextBelow s n = (dec.below (next s).1 n, (next s).2)) {d : Draw R α} {n : Nat}
    (h : d.AtMost n) (s : σ) : d.requests gen s =
      d.requests dec.generator ((List.range n).map fun i => (next ((fun s => (next s).2)^[i] s)).1) := by
  have hcons : ∀ (n : Nat) (s : σ), (List.range (n + 1)).map (fun i => (next ((fun s => (next s).2)^[i] s)).1) =
      (next s).1 :: (List.range n).map fun i => (next ((fun s => (next s).2)^[i] (next s).2)).1 := by
    intro n s
    rw [List.range_succ_eq_map, List.map_cons, List.map_map]
    rfl
  induction d generalizing n s with
  | ret a => rfl
  | u01 k ih =>
      obtain ⟨m, rfl⟩ := Nat.exists_eq_succ_of_ne_zero h.1.ne'
      rw [hcons, requests, hu01]
      exact congrArg (· + 1) (ih _ (h.2 _) _)
  | f01 k ih =>
      obtain ⟨m, rfl⟩ := Nat.exists_eq_succ_of_ne_zero h.1.ne'
      rw [hcons, requests, hf01]
      exact congrArg (· + 1) (ih _ (h.2 _) _)
  | index b k ih =>
      obtain ⟨m, rfl⟩ := Nat.exists_eq_succ_of_ne_zero h.1.ne'
      rw [hcons, requests, hbelow]
      exact congrArg (· + 1) (ih _ (h.2 _) _)

section cost

variable (word : PMF W) (dec : Decoder W R)

@[simp] theorem cost_pure (a : α) : (pure a : Draw R α).cost word dec = 0 := rfl

theorem cost_bind (d : Draw R α) (g : α → Draw R β) : (d >>= g).cost word dec =
    d.cost word dec + mean (d.tapeLaw word dec) fun a => (g a).cost word dec := by
  have hrequest : ∀ (c : W → ℝ≥0∞) (law : W → PMF α),
      (mean word fun x => c x + mean (law x) fun a => (g a).cost word dec) + 1 =
        mean word c + 1 + mean (word.bind law) fun a => (g a).cost word dec := by
    intro c law
    rw [mean_add, mean_bind, add_right_comm]
  induction d with
  | ret a =>
      rw [ret_eq_pure, cost_pure, tapeLaw_pure, mean_pure, zero_add, pure_bind]
  | u01 next ih =>
      refine Eq.trans ?_ (hrequest _ fun x => (next (dec.u01 x)).tapeLaw word dec)
      exact congrArg (mean word · + 1) (funext fun x => ih (dec.u01 x))
  | f01 next ih =>
      refine Eq.trans ?_ (hrequest _ fun x => (next (dec.f01 x)).tapeLaw word dec)
      exact congrArg (mean word · + 1) (funext fun x => ih (dec.f01 x))
  | index n next ih =>
      refine Eq.trans ?_ (hrequest _ fun x => (next (dec.below x n)).tapeLaw word dec)
      exact congrArg (mean word · + 1) (funext fun x => ih (dec.below x n))

theorem cost_map (d : Draw R α) (g : α → β) : (g <$> d).cost word dec = d.cost word dec := by
  rw [map_eq_pure_bind, cost_bind]
  simp only [cost_pure, mean_const, add_zero]

theorem AtMost.cost_le {d : Draw R α} {n : Nat} (h : d.AtMost n) : d.cost word dec ≤ n := by
  have hrequest : ∀ {n : Nat} (c : W → ℝ≥0∞), 0 < n → (∀ x, c x ≤ (n - 1 : Nat)) → mean word c + 1 ≤ n := by
    intro n c hn hc
    obtain ⟨k, rfl⟩ := Nat.exists_eq_succ_of_ne_zero hn.ne'
    rw [Nat.cast_succ]
    exact add_le_add_left ((mean_mono fun x _ => hc x).trans_eq (mean_const word _)) 1
  induction d generalizing n with
  | ret a => exact zero_le
  | u01 next ih => exact hrequest _ h.1 fun x => ih _ (h.2 _)
  | f01 next ih => exact hrequest _ h.1 fun x => ih _ (h.2 _)
  | index m next ih => exact hrequest _ h.1 fun x => ih _ (h.2 _)

/-- **The mean over the tapes** that are long enough. -/
theorem mean_requests [Inhabited W] {d : Draw R α} {n : Nat} (h : d.AtMost n) :
    mean (tapes word n) (fun tape => (d.requests dec.generator tape : ℝ≥0∞)) = d.cost word dec := by
  have hcons : ∀ (n : Nat) (k : W → List W → Nat), mean (tapes word (n + 1))
      (fun tape => ((k tape.headI tape.tail + 1 : Nat) : ℝ≥0∞)) =
        (mean word fun x => mean (tapes word n) fun tape => (k x tape : ℝ≥0∞)) + 1 := by
    intro n k
    simp only [Nat.cast_add, Nat.cast_one]
    rw [mean_add, mean_const, tapes, mean_bind]
    congr 2
    funext x
    exact mean_map _ _ _
  induction d generalizing n with
  | ret a => exact (mean_congr fun _ _ => Nat.cast_zero).trans (mean_const _ 0)
  | u01 next ih =>
      obtain ⟨k, rfl⟩ := Nat.exists_eq_succ_of_ne_zero h.1.ne'
      refine (hcons k fun x tape => (next (dec.u01 x)).requests dec.generator tape).trans ?_
      exact congrArg (mean word · + 1) (funext fun x => ih _ (h.2 _))
  | f01 next ih =>
      obtain ⟨k, rfl⟩ := Nat.exists_eq_succ_of_ne_zero h.1.ne'
      refine (hcons k fun x tape => (next (dec.f01 x)).requests dec.generator tape).trans ?_
      exact congrArg (mean word · + 1) (funext fun x => ih _ (h.2 _))
  | index m next ih =>
      obtain ⟨k, rfl⟩ := Nat.exists_eq_succ_of_ne_zero h.1.ne'
      refine (hcons k fun x tape => (next (dec.below x m)).requests dec.generator tape).trans ?_
      exact congrArg (mean word · + 1) (funext fun x => ih _ (h.2 _))

end cost

end Draw

theorem Paths.cost_program_le {letter : S → Draw R (Option A)} {move : S → A → S} {word : PMF W} {dec : Decoder W R}
    {c : ℝ≥0∞} (h : ∀ s, (letter s).cost word dec ≤ c) (n : Nat) (s : S) :
    (program letter move n s).cost word dec ≤ n * c := by
  induction n generalizing s with
  | zero => exact zero_le
  | succ n ih =>
      rw [program, Draw.cost_bind, Nat.cast_succ, add_mul, one_mul, add_comm (n * c)]
      apply add_le_add (h s)
      refine (mean_mono fun a _ => ?_).trans_eq (mean_const _ (n * c))
      cases a with
      | none => exact zero_le
      | some a =>
          show (do let rest ← program letter move n (move s a); return a :: rest).cost word dec ≤ _
          rw [bind_pure_comp, Draw.cost_map]
          exact ih (move s a)

end Tea
