import Mathlib.Data.List.Sort
import Mathlib.Order.Basic
/-!
# Bisection

`bisect` is the loop of the standard library's `lower_bound` and `upper_bound`: it halves the range
`[first, first + len)` and goes right while the predicate holds at the middle. For an arbitrary predicate
the answer stays inside the range; when the predicate holds exactly below an index, the answer is that
index. `lowerBound` and `upperBound` are the two instances over a comparison.
-/

namespace Tea.Search

variable {α : Type}

/-- Halve `[first, first + len)`, going right where `p` holds. -/
def bisect (p : Nat → Bool) : (fuel first len : Nat) → Nat
  | 0, first, _ => first
  | fuel + 1, first, len =>
      if len = 0 then first
      else if p (first + len / 2) then bisect p fuel (first + len / 2 + 1) (len - len / 2 - 1)
      else bisect p fuel first (len / 2)

theorem bisect_le (p : Nat → Bool) (fuel first len : Nat) : bisect p fuel first len ≤ first + len := by
  induction fuel generalizing first len with
  | zero => exact Nat.le_add_right first len
  | succ fuel ih =>
      rw [bisect]
      split_ifs with hlen
      · omega
      · have := ih (first + len / 2 + 1) (len - len / 2 - 1)
        omega
      · have := ih first (len / 2)
        omega

theorem bisect_eq (p : Nat → Bool) (m : Nat) (fuel first len : Nat) (hfuel : len ≤ fuel)
    (hlow : first ≤ m) (hhigh : m ≤ first + len)
    (hbelow : ∀ i, first ≤ i → i < m → p i = true)
    (habove : ∀ i, m ≤ i → i < first + len → p i = false) :
    bisect p fuel first len = m := by
  induction fuel generalizing first len with
  | zero =>
      rw [bisect]
      omega
  | succ fuel ih =>
      rw [bisect]
      split_ifs with hlen hmid
      · omega
      · have hm : first + len / 2 < m := by
          by_contra hle
          rw [habove _ (by omega) (by omega)] at hmid
          exact Bool.false_ne_true hmid
        exact ih _ _ (by omega) (by omega) (by omega) (fun i hi => hbelow i (by omega))
          (fun i hi hlt => habove i hi (by omega))
      · have hm : m ≤ first + len / 2 := by
          by_contra hlt
          exact hmid (hbelow _ (by omega) (by omega))
        exact ih _ _ (by omega) hlow hm hbelow (fun i hi hlt => habove i hi (by omega))

/-- `std::lower_bound`: go right while the element is less than `x`. -/
def lowerBound (lt : α → α → Bool) (xs : List α) (x : α) : Nat :=
  bisect (fun i => xs[i]?.any fun y => lt y x) xs.length 0 xs.length

/-- `std::upper_bound`: go right while `x` is not less than the element. -/
def upperBound (lt : α → α → Bool) (xs : List α) (x : α) : Nat :=
  bisect (fun i => xs[i]?.any fun y => !lt x y) xs.length 0 xs.length

/-- `std::binary_search`: the lower bound exists and is not greater than `x`. -/
def binarySearch (lt : α → α → Bool) (xs : List α) (x : α) : Bool :=
  xs[lowerBound lt xs x]?.any fun y => !lt x y

theorem lowerBound_le_length (lt : α → α → Bool) (xs : List α) (x : α) :
    lowerBound lt xs x ≤ xs.length := by
  have := bisect_le (fun i => xs[i]?.any fun y => lt y x) xs.length 0 xs.length
  simpa [lowerBound] using this

theorem upperBound_le_length (lt : α → α → Bool) (xs : List α) (x : α) :
    upperBound lt xs x ≤ xs.length := by
  have := bisect_le (fun i => xs[i]?.any fun y => !lt x y) xs.length 0 xs.length
  simpa [upperBound] using this

theorem upperBound_eq (lt : α → α → Bool) (xs : List α) (x : α) (m : Nat) (hm : m ≤ xs.length)
    (hbelow : ∀ (i : Nat) (hi : i < xs.length), i < m → lt x xs[i] = false)
    (habove : ∀ (i : Nat) (hi : i < xs.length), m ≤ i → lt x xs[i] = true) :
    upperBound lt xs x = m := by
  refine bisect_eq _ m _ _ _ le_rfl (Nat.zero_le m) (by omega) (fun i _ hi => ?_) (fun i hi hlt => ?_)
  · have hlen : i < xs.length := by omega
    simp [List.getElem?_eq_getElem hlen, hbelow i hlen hi]
  · have hlen : i < xs.length := by omega
    simp [List.getElem?_eq_getElem hlen, habove i hlen hi]

theorem lowerBound_eq (lt : α → α → Bool) (xs : List α) (x : α) (m : Nat) (hm : m ≤ xs.length)
    (hbelow : ∀ (i : Nat) (hi : i < xs.length), i < m → lt xs[i] x = true)
    (habove : ∀ (i : Nat) (hi : i < xs.length), m ≤ i → lt xs[i] x = false) :
    lowerBound lt xs x = m := by
  refine bisect_eq _ m _ _ _ le_rfl (Nat.zero_le m) (by omega) (fun i _ hi => ?_) (fun i hi hlt => ?_)
  · have hlen : i < xs.length := by omega
    simp [List.getElem?_eq_getElem hlen, hbelow i hlen hi]
  · have hlen : i < xs.length := by omega
    simp [List.getElem?_eq_getElem hlen, habove i hlen hi]

/-! ### Sorted lists of a linear order -/

section sorted

variable [LinearOrder α]

theorem lt_iff_lt_countP {xs : List α} (hsorted : xs.Pairwise (· ≤ ·)) (x : α) (i : Nat)
    (hi : i < xs.length) : xs[i] < x ↔ i < xs.countP (· < x) := by
  induction xs generalizing i with
  | nil => simp at hi
  | cons y xs ih =>
      obtain ⟨hy, hxs⟩ := List.pairwise_cons.mp hsorted
      rw [List.countP_cons]
      by_cases hlt : y < x
      · cases i with
        | zero => simp [hlt]
        | succ i =>
            have := ih hxs i (by simpa using hi)
            simpa [hlt] using this
      · have hzero : xs.countP (· < x) = 0 := by
          rw [List.countP_eq_zero]
          intro z hz
          simpa using le_trans (not_lt.mp hlt) (hy z hz)
        have hle : x ≤ (y :: xs)[i] := by
          cases i with
          | zero => exact not_lt.mp hlt
          | succ i => exact le_trans (not_lt.mp hlt) (hy _ (List.getElem_mem _))
        simp only [hzero, hlt, decide_false, Bool.false_eq_true, if_false]
        constructor
        · intro h
          exact absurd h (not_lt.mpr hle)
        · intro h
          exact absurd h (Nat.not_lt_zero i)

theorem lowerBound_sorted {xs : List α} (hsorted : xs.Pairwise (· ≤ ·)) (x : α) :
    lowerBound (fun a b => decide (a < b)) xs x = xs.countP (· < x) := by
  refine lowerBound_eq _ xs x _ List.countP_le_length (fun i hi hlt => ?_) (fun i hi hle => ?_)
  · simpa using (lt_iff_lt_countP hsorted x i hi).mpr hlt
  · rw [decide_eq_false_iff_not, lt_iff_lt_countP hsorted x i hi]
    omega

theorem binarySearch_sorted {xs : List α} (hsorted : xs.Pairwise (· ≤ ·)) (x : α) :
    binarySearch (fun a b => decide (a < b)) xs x = true ↔ x ∈ xs := by
  rw [binarySearch, lowerBound_sorted hsorted]
  set m := xs.countP (· < x)
  constructor
  · intro h
    obtain ⟨y, hy, hle⟩ := (Option.any_eq_true _ _).mp h
    obtain ⟨hm, rfl⟩ := List.getElem?_eq_some_iff.mp hy
    have hnot : ¬ xs[m] < x := fun hlt => lt_irrefl m ((lt_iff_lt_countP hsorted x m hm).mp hlt)
    have hle' : ¬ x < xs[m] := by simpa using hle
    rw [← le_antisymm (not_lt.mp hle') (not_lt.mp hnot)]
    exact List.getElem_mem hm
  · intro hx
    obtain ⟨i, hi, rfl⟩ := List.getElem_of_mem hx
    have hmi : m ≤ i := by
      by_contra hlt
      exact lt_irrefl _ ((lt_iff_lt_countP hsorted xs[i] i hi).mpr (by omega))
    have hm : m < xs.length := by omega
    rw [List.getElem?_eq_getElem hm, Option.any_some, Bool.not_eq_true', decide_eq_false_iff_not, not_lt]
    rcases hmi.eq_or_lt with heq | hlt
    · exact le_of_eq (getElem_congr_idx heq)
    · exact List.pairwise_iff_getElem.mp hsorted m i hm hi hlt

end sorted

end Tea.Search
