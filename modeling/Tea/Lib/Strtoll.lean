import Mathlib.Algebra.Ring.Int.Defs
import Mathlib.Data.List.Basic
import Mathlib.Data.List.TakeWhile
import Mathlib.Order.Lattice
/-!
# `strtoll` on C strings

A pointer into a buffer is what stands from there to the end of the buffer, whose terminating NUL is not listed. A
string function stops at the first NUL, which need not be the last one.

`strtoll` is the function of the C standard in base 10 and the "C" locale: it skips white space, reads an optional sign
and the longest run of digits, and saturates. `Numeral` says which texts it reads and as which number, without the
saturation; `leadingInt_eq_some` says that the longest numeral is read.
-/

namespace Tea.CString

def nul : Char := '\x00'

/-- `*p`. -/
def deref (p : List Char) : Char := p.headD nul

/-- What a string function sees of the buffer. -/
def cstr (s : List Char) : List Char := s.takeWhile (· ≠ nul)

/-- `isspace`. -/
def isSpace (c : Char) : Bool := c = ' ' || (9 ≤ c.toNat && c.toNat ≤ 13)

/-- The optional sign, and what follows it. -/
def takeSign : List Char → Bool × List Char
  | '-' :: s => (true, s)
  | '+' :: s => (false, s)
  | s => (false, s)

/-- The number at the beginning of a text, and what follows it. -/
def leadingInt (s : List Char) : Option (Int × List Char) :=
  let (negative, t) := takeSign (s.dropWhile isSpace)
  let digits := t.takeWhile Char.isDigit
  if digits = [] then none
  else
    let n : Int := Nat.ofDigitChars 10 digits 0
    some (if negative then -n else n, t.dropWhile Char.isDigit)

/-- Saturation at the bounds of `long long`. -/
def clampLongLong (n : Int) : Int := max (-2 ^ 63) (min n (2 ^ 63 - 1))

/-- `strtoll(s, &end, 10)`: the value and `end`, which is `s` itself where there is no number. -/
def strtoll (s : List Char) : Int × List Char :=
  match leadingInt s with
  | some (n, rest) => (clampLongLong n, rest)
  | none => (0, s)

/-- How many characters `strtoll` looks at: the white space, the sign, the digits and the character after them. -/
def strtollLooksAt (s : List Char) : Nat :=
  s.length - ((takeSign (s.dropWhile isSpace)).2.dropWhile Char.isDigit).length + 1

theorem clampLongLong_isInt64 (n : Int) : -2 ^ 63 ≤ clampLongLong n ∧ clampLongLong n < 2 ^ 63 := by
  unfold clampLongLong
  omega

theorem clampLongLong_of_fits {n : Int} (h : -2 ^ 63 ≤ n ∧ n < 2 ^ 63) : clampLongLong n = n := by
  unfold clampLongLong
  omega

/-! ### Numerals -/

/-- The text is a number with white space before it. -/
inductive Numeral : List Char → Int → Prop
  | plain {spaces digits : List Char} (hspaces : ∀ c ∈ spaces, isSpace c = true) (hne : digits ≠ [])
      (hdigits : ∀ c ∈ digits, c.isDigit = true) : Numeral (spaces ++ digits) (Nat.ofDigitChars 10 digits 0)
  | plus {spaces digits : List Char} (hspaces : ∀ c ∈ spaces, isSpace c = true) (hne : digits ≠ [])
      (hdigits : ∀ c ∈ digits, c.isDigit = true) : Numeral (spaces ++ '+' :: digits) (Nat.ofDigitChars 10 digits 0)
  | minus {spaces digits : List Char} (hspaces : ∀ c ∈ spaces, isSpace c = true) (hne : digits ≠ [])
      (hdigits : ∀ c ∈ digits, c.isDigit = true) : Numeral (spaces ++ '-' :: digits) (-(Nat.ofDigitChars 10 digits 0 : Nat))

/-- No digit follows. -/
def NoDigit (rest : List Char) : Prop := ∀ c ∈ rest.head?, c.isDigit = false

theorem not_isSpace_of_isDigit {c : Char} (h : c.isDigit = true) : isSpace c = false := by
  have h := Char.isDigit_iff_toNat.mp h
  have hspace : c ≠ ' ' := by
    rintro rfl
    simp at h
  simp only [isSpace, hspace, decide_false, Bool.false_or, Bool.and_eq_false_iff, decide_eq_false_iff_not]
  simp at h
  omega

theorem takeSign_of_isDigit {c : Char} {s : List Char} (h : c.isDigit = true) : takeSign (c :: s) = (false, c :: s) := by
  unfold takeSign
  split
  · next heq =>
      cases heq
      simp at h
  · next heq =>
      cases heq
      simp at h
  · rfl

section span

variable {α : Type} {p : α → Bool} {w rest : List α}

theorem dropWhile_append_stop (hw : ∀ c ∈ w, p c = true) (hrest : ∀ c ∈ rest.head?, p c = false) :
    (w ++ rest).dropWhile p = rest := by
  rw [List.dropWhile_append_of_pos hw]
  cases rest with
  | nil => rfl
  | cons c rest => exact List.dropWhile_cons_of_neg (by simpa using hrest c rfl)

theorem takeWhile_append_stop (hw : ∀ c ∈ w, p c = true) (hrest : ∀ c ∈ rest.head?, p c = false) :
    (w ++ rest).takeWhile p = w := by
  rw [List.takeWhile_append_of_pos hw]
  cases rest with
  | nil => simp
  | cons c rest => rw [List.takeWhile_cons_of_neg (by simpa using hrest c rfl), List.append_nil]

theorem head?_dropWhile_false (p : α → Bool) (l : List α) : ∀ c ∈ (l.dropWhile p).head?, p c = false := by
  intro c hc
  have h := List.head?_dropWhile_not p l
  rw [Option.mem_def.mp hc] at h
  simpa using h

end span

theorem leadingInt_digits {s digits rest : List Char} (negative : Bool)
    (hsign : takeSign (s.dropWhile isSpace) = (negative, digits ++ rest)) (hne : digits ≠ [])
    (hdigits : ∀ c ∈ digits, c.isDigit = true) (hrest : NoDigit rest) :
    leadingInt s =
      some (if negative then -(Nat.ofDigitChars 10 digits 0 : Int) else Nat.ofDigitChars 10 digits 0, rest) := by
  unfold leadingInt
  rw [hsign]
  dsimp only
  rw [takeWhile_append_stop hdigits hrest, dropWhile_append_stop hdigits hrest, if_neg hne]

theorem leadingInt_of_numeral {pre rest : List Char} {n : Int} (h : Numeral pre n) (hrest : NoDigit rest) :
    leadingInt (pre ++ rest) = some (n, rest) := by
  cases h with
  | @plain spaces digits hspaces hne hdigits =>
      obtain ⟨d, ds, rfl⟩ := List.exists_cons_of_ne_nil hne
      have hd : d.isDigit = true := hdigits d (by simp)
      refine leadingInt_digits false ?_ hne hdigits hrest
      rw [List.append_assoc, dropWhile_append_stop hspaces (by simpa using not_isSpace_of_isDigit hd), List.cons_append]
      exact takeSign_of_isDigit hd
  | @plus spaces digits hspaces hne hdigits =>
      refine leadingInt_digits false ?_ hne hdigits hrest
      rw [List.append_assoc, dropWhile_append_stop hspaces (by simp; decide)]
      rfl
  | @minus spaces digits hspaces hne hdigits =>
      refine leadingInt_digits true ?_ hne hdigits hrest
      rw [List.append_assoc, dropWhile_append_stop hspaces (by simp; decide)]
      rfl

theorem takeSign_cases (t : List Char) : (∃ s, t = '-' :: s ∧ takeSign t = (true, s)) ∨
    (∃ s, t = '+' :: s ∧ takeSign t = (false, s)) ∨ takeSign t = (false, t) := by
  unfold takeSign
  split
  · exact Or.inl ⟨_, rfl, rfl⟩
  · exact Or.inr (Or.inl ⟨_, rfl, rfl⟩)
  · exact Or.inr (Or.inr rfl)

/-- **The longest numeral is read**, and nothing else. -/
theorem leadingInt_eq_some {s rest : List Char} {n : Int} :
    leadingInt s = some (n, rest) ↔ ∃ pre, s = pre ++ rest ∧ Numeral pre n ∧ NoDigit rest := by
  constructor
  · intro h
    have hs : s.takeWhile isSpace ++ s.dropWhile isSpace = s := List.takeWhile_append_dropWhile
    have hspaces : ∀ c ∈ s.takeWhile isSpace, isSpace c = true := fun c hc => List.mem_takeWhile_imp hc
    set t := (takeSign (s.dropWhile isSpace)).2 with ht
    have hsplit : t.takeWhile Char.isDigit ++ t.dropWhile Char.isDigit = t := List.takeWhile_append_dropWhile
    have hdigits : ∀ c ∈ t.takeWhile Char.isDigit, c.isDigit = true := fun c hc => List.mem_takeWhile_imp hc
    have hrest : NoDigit (t.dropWhile Char.isDigit) := head?_dropWhile_false Char.isDigit t
    unfold leadingInt at h
    dsimp only at h
    rw [← ht] at h
    split at h
    · cases h
    · next hne =>
        obtain ⟨hn, rfl⟩ := Prod.mk.inj (Option.some.inj h)
        rcases takeSign_cases (s.dropWhile isSpace) with ⟨r, hr, hsign⟩ | ⟨r, hr, hsign⟩ | hsign
        · obtain rfl : t = r := by rw [ht, hsign]
          rw [hsign, if_pos rfl] at hn
          refine ⟨s.takeWhile isSpace ++ '-' :: t.takeWhile Char.isDigit, ?_, hn ▸ .minus hspaces hne hdigits, hrest⟩
          rw [List.append_assoc, List.cons_append, hsplit, ← hr, hs]
        · obtain rfl : t = r := by rw [ht, hsign]
          rw [hsign, if_neg Bool.false_ne_true] at hn
          refine ⟨s.takeWhile isSpace ++ '+' :: t.takeWhile Char.isDigit, ?_, hn ▸ .plus hspaces hne hdigits, hrest⟩
          rw [List.append_assoc, List.cons_append, hsplit, ← hr, hs]
        · have htail : t = s.dropWhile isSpace := by rw [ht, hsign]
          rw [hsign, if_neg Bool.false_ne_true] at hn
          refine ⟨s.takeWhile isSpace ++ t.takeWhile Char.isDigit, ?_, hn ▸ .plain hspaces hne hdigits, hrest⟩
          rw [List.append_assoc, hsplit, htail, hs]
  · rintro ⟨pre, rfl, hpre, hrest⟩
    exact leadingInt_of_numeral hpre hrest

/-! ### The text of a numeral -/

/-- White space, signs and digits. -/
def IsNumeric (c : Char) : Prop := isSpace c = true ∨ c = '+' ∨ c = '-' ∨ c.isDigit = true

theorem IsNumeric.ne {c d : Char} (h : IsNumeric c) (hspace : isSpace d = false) (hplus : d ≠ '+') (hminus : d ≠ '-')
    (hdigit : d.isDigit = false) : c ≠ d := by
  rintro rfl
  rcases h with h | h | h | h
  · rw [hspace] at h
    cases h
  · exact hplus h
  · exact hminus h
  · rw [hdigit] at h
    cases h

theorem IsNumeric.ne_nul {c : Char} (h : IsNumeric c) : c ≠ nul :=
  h.ne (by decide) (by decide) (by decide) (by decide)

theorem Numeral.isNumeric {pre : List Char} {n : Int} (h : Numeral pre n) : ∀ c ∈ pre, IsNumeric c := by
  intro c hc
  cases h with
  | plain hspaces _ hdigits =>
      rcases List.mem_append.mp hc with hc | hc
      · exact Or.inl (hspaces c hc)
      · exact Or.inr (Or.inr (Or.inr (hdigits c hc)))
  | plus hspaces _ hdigits =>
      rcases List.mem_append.mp hc with hc | hc
      · exact Or.inl (hspaces c hc)
      · rcases List.mem_cons.mp hc with rfl | hc
        · exact Or.inr (Or.inl rfl)
        · exact Or.inr (Or.inr (Or.inr (hdigits c hc)))
  | minus hspaces _ hdigits =>
      rcases List.mem_append.mp hc with hc | hc
      · exact Or.inl (hspaces c hc)
      · rcases List.mem_cons.mp hc with rfl | hc
        · exact Or.inr (Or.inr (Or.inl rfl))
        · exact Or.inr (Or.inr (Or.inr (hdigits c hc)))

theorem Numeral.ne_nil {pre : List Char} {n : Int} (h : Numeral pre n) : pre ≠ [] := by
  cases h with
  | plain _ hne _ => simp [hne]
  | plus _ _ _ => simp
  | minus _ _ _ => simp

/-! ### What `strtoll` reads -/

theorem strtoll_of_numeral {s rest : List Char} {n : Int} (h : leadingInt s = some (n, rest)) :
    strtoll s = (clampLongLong n, rest) ∧ rest ≠ s := by
  refine ⟨by rw [strtoll, h], ?_⟩
  obtain ⟨pre, hs, hpre, -⟩ := leadingInt_eq_some.mp h
  intro heq
  have hlen := congrArg List.length hs
  rw [List.length_append, heq] at hlen
  exact hpre.ne_nil (List.length_eq_zero_iff.mp (by omega))

theorem strtoll_of_none {s : List Char} (h : leadingInt s = none) : strtoll s = (0, s) := by
  rw [strtoll, h]

theorem cstr_append {s t : List Char} (h : nul ∉ s) : cstr (s ++ t) = s ++ cstr t := by
  refine List.takeWhile_append_of_pos fun c hc => ?_
  have hne : c ≠ nul := fun heq => h (heq ▸ hc)
  simpa using hne

@[simp] theorem cstr_nil : cstr [] = [] := rfl

@[simp] theorem cstr_nul (s : List Char) : cstr (nul :: s) = [] := rfl

/-- The scan stops at the first NUL at the latest. -/
theorem strtollLooksAt_le (s : List Char) : strtollLooksAt s ≤ (cstr s).length + 1 := by
  suffices h : ∃ seen, s = seen ++ (takeSign (s.dropWhile isSpace)).2.dropWhile Char.isDigit ∧
      ∀ c ∈ seen, IsNumeric c by
    obtain ⟨seen, hs, hseen⟩ := h
    have hcstr : cstr s = seen ++ cstr ((takeSign (s.dropWhile isSpace)).2.dropWhile Char.isDigit) := by
      conv_lhs => rw [hs]
      exact cstr_append fun hmem => (hseen _ hmem).ne_nul rfl
    have hlen := congrArg List.length hs
    rw [List.length_append] at hlen
    rw [strtollLooksAt, hcstr, List.length_append]
    omega
  have hs : s.takeWhile isSpace ++ s.dropWhile isSpace = s := List.takeWhile_append_dropWhile
  have hspaces : ∀ c ∈ s.takeWhile isSpace, IsNumeric c := fun c hc => Or.inl (List.mem_takeWhile_imp hc)
  generalize s.dropWhile isSpace = t at hs
  have hsign : ∃ sign, t = sign ++ (takeSign t).2 ∧ ∀ c ∈ sign, IsNumeric c := by
    rcases takeSign_cases t with ⟨r, hr, heq⟩ | ⟨r, hr, heq⟩ | heq
    · exact ⟨['-'], by rw [heq]; exact hr, by simp [IsNumeric]⟩
    · exact ⟨['+'], by rw [heq]; exact hr, by simp [IsNumeric]⟩
    · exact ⟨[], by rw [heq]; rfl, by simp⟩
  obtain ⟨sign, ht, hnumeric⟩ := hsign
  set r := (takeSign t).2
  have hdigits : r.takeWhile Char.isDigit ++ r.dropWhile Char.isDigit = r := List.takeWhile_append_dropWhile
  refine ⟨s.takeWhile isSpace ++ sign ++ r.takeWhile Char.isDigit, ?_, fun c hc => ?_⟩
  · rw [List.append_assoc, hdigits, List.append_assoc, ← ht, hs]
  · rcases List.mem_append.mp hc with hc | hc
    · rcases List.mem_append.mp hc with hc | hc
      · exact hspaces c hc
      · exact hnumeric c hc
    · exact Or.inr (Or.inr (Or.inr (List.mem_takeWhile_imp hc)))

/-! ### Decimal numbers -/

/-- The decimal digits of an integer, with a sign where it is negative. -/
def decimal (n : Int) : List Char := if n < 0 then '-' :: Nat.toDigits 10 n.natAbs else Nat.toDigits 10 n.natAbs

theorem numeral_decimal (n : Int) : Numeral (decimal n) n := by
  have hdigits : ∀ c ∈ Nat.toDigits 10 n.natAbs, c.isDigit = true := fun c hc =>
    Nat.isDigit_of_mem_toDigits (by decide) (by decide) hc
  have hvalue : Nat.ofDigitChars 10 (Nat.toDigits 10 n.natAbs) 0 = n.natAbs := Nat.ofDigitChars_ten_toDigits
  unfold decimal
  split_ifs with hn
  · have h := Numeral.minus (by simp : ∀ c ∈ ([] : List Char), isSpace c = true) Nat.toDigits_ne_nil hdigits
    rw [hvalue] at h
    have habs : -((n.natAbs : Nat) : Int) = n := by omega
    rwa [habs] at h
  · have h := Numeral.plain (by simp : ∀ c ∈ ([] : List Char), isSpace c = true) Nat.toDigits_ne_nil hdigits
    rw [hvalue] at h
    have habs : ((n.natAbs : Nat) : Int) = n := by omega
    rwa [habs] at h

end Tea.CString
