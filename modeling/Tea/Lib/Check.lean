import Mathlib.Data.List.Range
/-!
# Checkers

A checker is a computation in `Except` that stops at the first violation it finds. `Decides x p Q` says that `x` completes
exactly if `p` holds, and then with a result that has `Q`. The rules follow the ways checkers are put together: a guard, a
sequence, and a loop over consecutive numbers whose state keeps an invariant.
-/

namespace Tea.Check

variable {ε α β σ : Type}

/-- `x` completes exactly if `p` holds, and then its result has `Q`. -/
structure Decides (x : Except ε α) (p : Prop) (Q : α → Prop) : Prop where
  complete : p → ∃ a, x = .ok a ∧ Q a
  sound : ∀ a, x = .ok a → p

namespace Decides

variable {x : Except ε α} {p p' : Prop} {Q : α → Prop}

theorem completes_iff (h : Decides x p Q) : (∃ a, x = .ok a) ↔ p := by
  constructor
  · rintro ⟨a, ha⟩
    exact h.sound a ha
  · intro hp
    obtain ⟨a, ha, -⟩ := h.complete hp
    exact ⟨a, ha⟩

theorem iff (h : Decides x p Q) (hp : p ↔ p') : Decides x p' Q := by
  rwa [← propext hp]

theorem mono {Q' : α → Prop} (h : Decides x p Q) (hQ : ∀ a, Q a → Q' a) : Decides x p Q' := by
  refine ⟨fun hp => ?_, h.sound⟩
  obtain ⟨a, rfl, ha⟩ := h.complete hp
  exact ⟨a, rfl, hQ a ha⟩

theorem ok {a : α} (ha : Q a) : Decides (.ok a : Except ε α) True Q :=
  ⟨fun _ => ⟨a, rfl, ha⟩, fun _ _ => trivial⟩

theorem guard {c : Prop} [Decidable c] {e : ε} (h : ¬ c → Decides x p Q) :
    Decides (if c then .error e else x) (¬ c ∧ p) Q := by
  by_cases hc : c
  · rw [if_pos hc]
    exact ⟨fun hp => absurd hc hp.1, fun a ha => nomatch ha⟩
  · rw [if_neg hc]
    exact (h hc).iff (by simp [hc])

theorem guardDep {c : Prop} [Decidable c] {e : ε} {x : ¬ c → Except ε α} (h : ∀ hc, Decides (x hc) p Q) :
    Decides (if hc : c then .error e else x hc) (¬ c ∧ p) Q := by
  by_cases hc : c
  · rw [dif_pos hc]
    exact ⟨fun hp => absurd hc hp.1, fun a ha => nomatch ha⟩
  · rw [dif_neg hc]
    exact (h hc).iff (by simp [hc])

theorem bind {f : α → Except ε β} {Q' : β → Prop} (h : Decides x p Q) (hf : ∀ a, Q a → Decides (f a) p' Q') :
    Decides (x >>= f) (p ∧ p') Q' := by
  constructor
  · rintro ⟨hp, hp'⟩
    obtain ⟨a, rfl, ha⟩ := h.complete hp
    exact (hf a ha).complete hp'
  · intro b hb
    cases x with
    | error e => cases hb
    | ok a =>
        have hp : p := h.sound a rfl
        obtain ⟨a', ha', hQ⟩ := h.complete hp
        cases ha'
        exact ⟨hp, (hf a hQ).sound b hb⟩

/-- A loop over the `n` numbers from `a` on. Round `k` checks `good k`; the invariant carries the state from round to
round. -/
theorem loop {step : σ → Nat → Except ε σ} {good : Nat → Prop} {I : Nat → σ → Prop} (n a : Nat)
    (hstep : ∀ k, a ≤ k → k < a + n → ∀ s, I k s → Decides (step s k) (good k) (I (k + 1))) {s : σ}
    (hs : I a s) :
    Decides ((List.range' a n).foldlM step s) (∀ k, a ≤ k → k < a + n → good k) (I (a + n)) := by
  induction n generalizing a s with
  | zero => exact (ok hs).iff (by simp only [true_iff]; omega)
  | succ n ih =>
      rw [List.range'_succ, List.foldlM_cons]
      have hrest : ∀ s', I (a + 1) s' → Decides ((List.range' (a + 1) n).foldlM step s')
          (∀ k, a + 1 ≤ k → k < a + (n + 1) → good k) (I (a + (n + 1))) := by
        intro s' hs'
        have h := ih (a + 1) (fun k hk hlt => hstep k (by omega) (by omega)) hs'
        rwa [Nat.add_right_comm a 1 n] at h
      apply ((hstep a le_rfl (by omega) s hs).bind hrest).iff
      constructor
      · rintro ⟨hfirst, hlater⟩ k hk hlt
        obtain rfl | hk := hk.eq_or_lt
        · exact hfirst
        · exact hlater k hk hlt
      · intro hall
        exact ⟨hall a le_rfl (by omega), fun k hk hlt => hall k (by omega) hlt⟩

theorem loop_stops {step : σ → Nat → Except ε σ} {good : Nat → Prop} {I : Nat → σ → Prop} {e : ε} (n a j : Nat)
    (hstep : ∀ k, a ≤ k → k < a + j → ∀ s, I k s → Decides (step s k) (good k) (I (k + 1)))
    (hgood : ∀ k, a ≤ k → k < a + j → good k) (hj : j < n) (hstop : ∀ s, I (a + j) s → step s (a + j) = .error e)
    {s : σ} (hs : I a s) : (List.range' a n).foldlM step s = .error e := by
  obtain ⟨m, rfl⟩ := Nat.exists_eq_add_of_lt hj
  obtain ⟨s', hprefix, hs'⟩ := (loop j a hstep hs).complete hgood
  have hcut : List.range' a (j + m + 1) = List.range' a j ++ (a + j) :: List.range' (a + j + 1) m := by
    rw [← List.range'_succ, Nat.add_assoc]
    exact List.range'_append_1.symm
  rw [hcut, List.foldlM_append, hprefix]
  show List.foldlM step s' ((a + j) :: List.range' (a + j + 1) m) = .error e
  rw [List.foldlM_cons, hstop s' hs']
  rfl

end Decides

end Tea.Check
