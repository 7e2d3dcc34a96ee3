import Tea.Csv.Reader
/-!
# What the reader accepts

`Field`, `Row` and `RunsOut` describe the texts of a line, without the code: a number with an optional fraction, three of
them in a row, and a number whose fraction meets no comma. A text is accepted exactly when it is a row
(`parseLine_eq_ok`), and the step past the separator leaves it exactly for the texts of `Overruns`; every other text is an
error. What the code reads is the line, its NUL and the memory behind that: the memory matters for no line but those of
`Overruns` (`row_behind_iff`).
-/

namespace Tea.Csv

open CString

/-! ### The texts -/

/-- At `p` stands the number `n`, with an optional fraction; `stop` is the comma or the NUL that ends it, and what
follows. -/
inductive Field : (p : List Char) → (n : Int) → (stop : List Char) → Prop
  | whole {pre stop : List Char} {n : Int} (hn : Numeral pre n) (hstop : deref stop = ',') : Field (pre ++ stop) n stop
  | fraction {pre tail stop : List Char} {n : Int} (hn : Numeral pre n) (htail : ∀ c ∈ tail, c ≠ nul ∧ c ≠ ',')
      (hstop : deref stop = ',' ∨ deref stop = nul) : Field (pre ++ '.' :: (tail ++ stop)) n stop

/-- Two fields, each with a character after it, and a number. -/
inductive Row : (line : List Char) → (a b c : Int) → Prop
  | mk {line p pre rest : List Char} {x y : Char} {a b c : Int} (hu : Field line a (x :: p))
      (hv : Field p b (y :: (pre ++ rest))) (ht : Numeral pre c) (hrest : NoDigit rest) : Row line a b c

/-- The fraction of a number runs into a NUL. -/
def RunsOut (p : List Char) : Prop := ∃ n stop, Field p n stop ∧ deref stop = nul

/-- The fraction of one of the first two numbers runs into a NUL. -/
def Unclosed (line : List Char) : Prop := RunsOut line ∨ ∃ a p, Field line a (',' :: p) ∧ RunsOut p

/-- The fraction of one of the first two numbers runs to the end of the text. -/
def Overruns (line : List Char) : Prop :=
  (∃ a, Field line a []) ∨ ∃ a x p b, Field line a (x :: p) ∧ Field p b []

/-- The edge that is stored for a row. -/
def edgeOf (a b c : Int) : Edge := ⟨toInt32 (clampLongLong a), toInt32 (clampLongLong b), clampLongLong c⟩

/-- The values fit the types of an edge. -/
def Fits (a b c : Int) : Prop := IsInt32 a ∧ IsInt32 b ∧ IsInt64 c

theorem edgeOf_eq_iff {a b c : Int} : edgeOf a b c = ⟨a, b, c⟩ ↔ Fits a b c := by
  have hid : ∀ n, toInt32 (clampLongLong n) = n ↔ IsInt32 n := by
    intro n
    constructor
    · intro h
      exact h ▸ toInt32_isInt32 _
    · intro h
      obtain ⟨hlo, hhi⟩ := h
      rw [clampLongLong_of_fits (by omega), toInt32_of_isInt32 ⟨hlo, hhi⟩]
  have htime : clampLongLong c = c ↔ IsInt64 c := by
    constructor
    · intro h
      exact h ▸ clampLongLong_isInt64 c
    · exact clampLongLong_of_fits
  rw [edgeOf, Edge.mk.injEq, hid, hid, htime]
  rfl

/-! ### Fields as the code finds them -/

theorem noDigit_of_deref {rest : List Char} (h : deref rest = ',' ∨ deref rest = '.') : NoDigit rest := by
  intro c hc
  cases rest with
  | nil => cases hc
  | cons d rest =>
      obtain rfl : d = c := by simpa using hc
      rcases h with h | h
      · obtain rfl : d = ',' := h
        rfl
      · obtain rfl : d = '.' := h
        rfl

/-- The loop that looks for the comma. -/
def commaOrNul (endPtr : List Char) : List Char := endPtr.dropWhile fun c => c ≠ nul && c ≠ ','

theorem deref_commaOrNul (endPtr : List Char) : deref (commaOrNul endPtr) = ',' ∨ deref (commaOrNul endPtr) = nul := by
  have h := head?_dropWhile_false (fun c => c ≠ nul && c ≠ ',') endPtr
  unfold commaOrNul
  cases hstop : endPtr.dropWhile fun c => c ≠ nul && c ≠ ',' with
  | nil => exact Or.inr rfl
  | cons c stop =>
      rw [hstop] at h
      have hc := h c rfl
      simp only [ne_eq, decide_not, Bool.and_eq_false_iff, Bool.not_eq_false', decide_eq_true_eq] at hc
      exact hc.symm

theorem commaOrNul_of_deref {stop : List Char} (h : deref stop = ',' ∨ deref stop = nul) : commaOrNul stop = stop := by
  cases stop with
  | nil => rfl
  | cons c stop =>
      refine List.dropWhile_cons_of_neg ?_
      rcases h with h | h
      · obtain rfl : c = ',' := h
        decide
      · obtain rfl : c = nul := h
        decide

theorem commaOrNul_append {tail stop : List Char} (htail : ∀ c ∈ tail, c ≠ nul ∧ c ≠ ',')
    (hstop : deref stop = ',' ∨ deref stop = nul) : commaOrNul (tail ++ stop) = stop := by
  have hskip : commaOrNul (tail ++ stop) = commaOrNul stop :=
    List.dropWhile_append_of_pos fun c hc => by simpa using htail c hc
  rw [hskip, commaOrNul_of_deref hstop]

/-- A field is a number, a comma or a point behind it, and the end of the search for a comma. -/
theorem field_iff {p stop : List Char} {n : Int} : Field p n stop ↔
    ∃ rest, leadingInt p = some (n, rest) ∧ (deref rest = ',' ∨ deref rest = '.') ∧ stop = commaOrNul rest := by
  constructor
  · intro h
    cases h with
    | whole hn hstop =>
        refine ⟨stop, leadingInt_of_numeral hn (noDigit_of_deref (Or.inl hstop)), Or.inl hstop, ?_⟩
        rw [commaOrNul_of_deref (Or.inl hstop)]
    | @fraction pre tail stop n hn htail hstop =>
        refine ⟨'.' :: (tail ++ stop), leadingInt_of_numeral hn (noDigit_of_deref (Or.inr rfl)), Or.inr rfl, ?_⟩
        refine (commaOrNul_append ?_ hstop : commaOrNul (('.' :: tail) ++ stop) = stop).symm
        intro c hc
        rcases List.mem_cons.mp hc with rfl | hc
        · decide
        · exact htail c hc
  · rintro ⟨rest, hread, hsep, rfl⟩
    obtain ⟨pre, rfl, hpre, hrest⟩ := leadingInt_eq_some.mp hread
    rcases hsep with hsep | hsep
    · rw [commaOrNul_of_deref (Or.inl hsep)]
      exact Field.whole hpre hsep
    · cases rest with
      | nil => cases hsep
      | cons d tail =>
          obtain rfl : d = '.' := hsep
          have hskip : commaOrNul ('.' :: tail) = commaOrNul tail := List.dropWhile_cons_of_pos (by decide)
          have hsplit : (tail.takeWhile fun c => c ≠ nul && c ≠ ',') ++ commaOrNul tail = tail :=
            List.takeWhile_append_dropWhile
          have hfield : Field (pre ++ '.' :: ((tail.takeWhile fun c => c ≠ nul && c ≠ ',') ++ commaOrNul tail)) n
              (commaOrNul tail) := by
            refine Field.fraction hpre (fun c hc => ?_) (deref_commaOrNul tail)
            simpa using List.mem_takeWhile_imp hc
          rw [hsplit] at hfield
          rwa [hskip]

theorem Field.unique {p stop stop' : List Char} {n n' : Int} (h : Field p n stop) (h' : Field p n' stop') :
    n = n' ∧ stop = stop' := by
  obtain ⟨rest, hread, -, rfl⟩ := field_iff.mp h
  obtain ⟨rest', hread', -, rfl⟩ := field_iff.mp h'
  obtain ⟨rfl, rfl⟩ := Prod.mk.inj (Option.some.inj (hread.symm.trans hread'))
  exact ⟨rfl, rfl⟩

theorem Row.unique {line : List Char} {a b c a' b' c' : Int} (h : Row line a b c) (h' : Row line a' b' c') :
    a = a' ∧ b = b' ∧ c = c' := by
  cases h with
  | @mk p pre rest x y _ _ _ hu hv ht hrest =>
      cases h' with
      | @mk p' pre' rest' x' y' _ _ _ hu' hv' ht' hrest' =>
          obtain ⟨rfl, hp⟩ := hu.unique hu'
          obtain rfl : p = p' := (List.cons.inj hp).2
          obtain ⟨rfl, hq⟩ := hv.unique hv'
          have hq : pre ++ rest = pre' ++ rest' := (List.cons.inj hq).2
          have hread := leadingInt_of_numeral ht hrest
          rw [hq, leadingInt_of_numeral ht' hrest'] at hread
          exact ⟨rfl, rfl, (congrArg Prod.fst (Option.some.inj hread)).symm⟩

/-! ### Behind the line -/

section behind

variable {p line : List Char} (s : List Char)

theorem split_before_nul {f q : List Char} (h : p ++ nul :: s = f ++ q) (hf : nul ∉ f) :
    ∃ r, p = f ++ r ∧ q = r ++ nul :: s := by
  rcases List.append_eq_append_iff.mp h with ⟨r, hfr, hq⟩ | ⟨r, hp, hq⟩
  · cases r with
    | nil => exact ⟨[], by simpa using hfr.symm, by simpa using hq.symm⟩
    | cons c r =>
        obtain rfl : nul = c := (List.cons.inj hq).1
        exact absurd (hfr ▸ by simp) hf
  · exact ⟨r, hp, hq⟩

theorem deref_behind (p : List Char) : deref (p ++ nul :: s) = deref p := by
  cases p <;> rfl

theorem noDigit_behind {rest : List Char} : NoDigit (rest ++ nul :: s) ↔ NoDigit rest := by
  have hnul : nul.isDigit = false := by decide
  cases rest with
  | nil => simp [NoDigit, hnul]
  | cons c rest => simp [NoDigit]

theorem leadingInt_behind (p : List Char) :
    leadingInt (p ++ nul :: s) = (leadingInt p).map fun r => (r.1, r.2 ++ nul :: s) := by
  cases hread : leadingInt p with
  | some r =>
      obtain ⟨pre, rfl, hn, hrest⟩ := leadingInt_eq_some.mp (show leadingInt p = some (r.1, r.2) from hread)
      rw [List.append_assoc]
      exact leadingInt_of_numeral hn ((noDigit_behind s).mpr hrest)
  | none =>
      by_contra hsome
      obtain ⟨r, hr⟩ := Option.ne_none_iff_exists'.mp hsome
      obtain ⟨pre, hp, hn, hrest⟩ := leadingInt_eq_some.mp (show leadingInt _ = some (r.1, r.2) from hr)
      obtain ⟨q, rfl, hq⟩ := split_before_nul s hp fun hmem => (hn.isNumeric _ hmem).ne_nul rfl
      rw [hq] at hrest
      rw [leadingInt_of_numeral hn ((noDigit_behind s).mp hrest)] at hread
      cases hread

theorem commaOrNul_behind (endPtr : List Char) : commaOrNul (endPtr ++ nul :: s) = commaOrNul endPtr ++ nul :: s := by
  unfold commaOrNul
  rw [List.dropWhile_append]
  split_ifs with hempty
  · rw [List.isEmpty_iff.mp hempty, List.nil_append]
    exact List.dropWhile_cons_of_neg (by decide)
  · rfl

theorem field_behind_iff {n : Int} {stop : List Char} :
    Field (p ++ nul :: s) n stop ↔ ∃ stop₀, Field p n stop₀ ∧ stop = stop₀ ++ nul :: s := by
  simp only [field_iff, leadingInt_behind, Option.map_eq_some_iff]
  constructor
  · rintro ⟨_, ⟨⟨n', rest⟩, hread, heq⟩, hsep, rfl⟩
    obtain ⟨rfl, rfl⟩ := Prod.mk.inj heq
    rw [deref_behind] at hsep
    exact ⟨commaOrNul rest, ⟨rest, hread, hsep, rfl⟩, commaOrNul_behind s rest⟩
  · rintro ⟨_, ⟨rest, hread, hsep, rfl⟩, rfl⟩
    exact ⟨rest ++ nul :: s, ⟨(n, rest), hread, rfl⟩, by rwa [deref_behind], (commaOrNul_behind s rest).symm⟩

theorem runsOut_behind : RunsOut (p ++ nul :: s) ↔ RunsOut p := by
  constructor
  · rintro ⟨n, stop, hfield, hstop⟩
    obtain ⟨stop₀, hfield₀, rfl⟩ := (field_behind_iff s).mp hfield
    exact ⟨n, stop₀, hfield₀, by rwa [deref_behind] at hstop⟩
  · rintro ⟨n, stop, hfield, hstop⟩
    exact ⟨n, _, (field_behind_iff s).mpr ⟨stop, hfield, rfl⟩, by rwa [deref_behind]⟩

theorem unclosed_behind : Unclosed (line ++ nul :: s) ↔ Unclosed line := by
  unfold Unclosed
  rw [runsOut_behind]
  refine or_congr_right ⟨?_, ?_⟩
  · rintro ⟨a, p, hu, hout⟩
    obtain ⟨stop, hu₀, hp⟩ := (field_behind_iff s).mp hu
    cases stop with
    | nil => cases hp
    | cons c p₀ =>
        obtain ⟨rfl, rfl⟩ := List.cons.inj hp
        exact ⟨a, p₀, hu₀, (runsOut_behind s).mp hout⟩
  · rintro ⟨a, p, hu, hout⟩
    exact ⟨a, p ++ nul :: s, (field_behind_iff s).mpr ⟨_, hu, rfl⟩, (runsOut_behind s).mpr hout⟩

theorem Row.behind {a b c : Int} (h : Row line a b c) : Row (line ++ nul :: s) a b c := by
  cases h with
  | @mk p pre rest x y _ _ _ hu hv ht hrest =>
      have hv' : Field (p ++ nul :: s) b (y :: (pre ++ (rest ++ nul :: s))) :=
        (field_behind_iff s).mpr ⟨_, hv, by rw [List.cons_append, List.append_assoc]⟩
      exact .mk ((field_behind_iff s).mpr ⟨_, hu, rfl⟩) hv' ht ((noDigit_behind s).mpr hrest)

/-- A line that does not overrun is no row because of what stands behind it. -/
theorem row_behind_iff {a b c : Int} (hover : ¬ Overruns line) : Row (line ++ nul :: s) a b c ↔ Row line a b c := by
  refine ⟨fun h => ?_, Row.behind s⟩
  cases h with
  | @mk q pre rest x y _ _ _ hu hv ht hrest =>
      obtain ⟨stop, hu₀, hp⟩ := (field_behind_iff s).mp hu
      cases stop with
      | nil => exact absurd (.inl ⟨a, hu₀⟩) hover
      | cons x' p =>
          obtain ⟨rfl, rfl⟩ := List.cons.inj hp
          obtain ⟨stop, hv₀, hq⟩ := (field_behind_iff s).mp hv
          cases stop with
          | nil => exact absurd (.inr ⟨a, x, p, b, hu₀, hv₀⟩) hover
          | cons y' q =>
              obtain ⟨rfl, hqr⟩ := List.cons.inj hq
              obtain ⟨r, rfl, rfl⟩ := split_before_nul s hqr.symm fun hmem => (ht.isNumeric _ hmem).ne_nul rfl
              exact .mk hu₀ hv₀ ht ((noDigit_behind s).mp hrest)

end behind

/-! ### What the code reads -/

theorem callStrtoll_some (line p : List Char) :
    callStrtoll line (some p) = ⟨offsetsFrom line p (strtollLooksAt p), .ok (strtoll p)⟩ := by
  show (⟨offsetsFrom line p (strtollLooksAt p) ++ [], .ok (strtoll p)⟩ : Logged _) = _
  rw [List.append_nil]

theorem skipToComma_eq (line endPtr : List Char) : skipToComma line endPtr =
    ⟨offsetsFrom line endPtr (endPtr.length - (commaOrNul endPtr).length + 1), .ok (commaOrNul endPtr)⟩ := by
  show (⟨offsetsFrom line endPtr (endPtr.length - (commaOrNul endPtr).length + 1) ++ [],
    .ok (commaOrNul endPtr)⟩ : Logged _) = _
  rw [List.append_nil]

/-- The error of a bad field. -/
def bad (name : String) (lineno : Nat) : Fault := .thrown ("bad " ++ name ++ " at line " ++ toString lineno)

theorem parseId_of_field {p stop : List Char} {n : Int} (h : Field p n stop) (name : String) (lineno : Nat)
    (line : List Char) : parseId name lineno line (some p) =
      ⟨offsetsFrom line p (strtollLooksAt p) ++ (offsetOf line (strtoll p).2 ::
        offsetsFrom line (strtoll p).2 ((strtoll p).2.length - stop.length + 1)),
        .ok (clampLongLong n, next stop)⟩ := by
  obtain ⟨rest, hread, hsep, rfl⟩ := field_iff.mp h
  obtain ⟨hcall, hne⟩ := strtoll_of_numeral hread
  have hguard : ¬ (some rest = some p ∨ (deref rest ≠ ',' ∧ deref rest ≠ '.')) := by
    rintro (heq | ⟨hcomma, hpoint⟩)
    · exact hne (Option.some.inj heq)
    · exact hsep.elim hcomma hpoint
  unfold parseId
  rw [callStrtoll_some, Logged.bind_of_ok _ rfl, hcall]
  dsimp only
  rw [Logged.bind_of_ok _ rfl]
  dsimp only [Logged.touch]
  rw [if_neg hguard, skipToComma_eq, Logged.bind_of_ok _ rfl]
  show (⟨_ ++ ([_] ++ (_ ++ [])), _⟩ : Logged _) = _
  rw [List.append_nil]
  rfl

theorem parseId_of_not_field {p : List Char} (h : ∀ n stop, ¬ Field p n stop) (name : String) (lineno : Nat)
    (line : List Char) : parseId name lineno line (some p) =
      ⟨offsetsFrom line p (strtollLooksAt p) ++ [offsetOf line (strtoll p).2], .error (bad name lineno)⟩ := by
  have hguard : some (strtoll p).2 = some p ∨ (deref (strtoll p).2 ≠ ',' ∧ deref (strtoll p).2 ≠ '.') := by
    cases hread : leadingInt p with
    | none => exact Or.inl (by rw [strtoll_of_none hread])
    | some r =>
        obtain ⟨n, rest⟩ := r
        rw [(strtoll_of_numeral hread).1]
        refine Or.inr ⟨fun hsep => ?_, fun hsep => ?_⟩
        · exact h n _ (field_iff.mpr ⟨rest, hread, Or.inl hsep, rfl⟩)
        · exact h n _ (field_iff.mpr ⟨rest, hread, Or.inr hsep, rfl⟩)
  unfold parseId
  rw [callStrtoll_some, Logged.bind_of_ok _ rfl]
  dsimp only
  rw [Logged.bind_of_ok _ rfl]
  dsimp only [Logged.touch]
  rw [if_pos hguard]
  rfl

/-! ### The three fields together -/

section line

variable {line : List Char} (lineno : Nat)

theorem parseLine_of_row {a b c : Int} (h : Row line a b c) : (parseLine lineno line).result = .ok (edgeOf a b c) := by
  cases h with
  | @mk p pre rest x y _ _ _ hu hv ht hrest =>
      obtain ⟨hcall, hne⟩ := strtoll_of_numeral (leadingInt_of_numeral ht hrest)
      have hguard : ¬ some rest = some (pre ++ rest) := fun heq => hne (Option.some.inj heq)
      unfold parseLine
      rw [parseId_of_field hu, Logged.result_bind_of_ok _ rfl]
      dsimp only [next, List.tail?_cons]
      rw [parseId_of_field hv, Logged.result_bind_of_ok _ rfl]
      dsimp only [next, List.tail?_cons]
      rw [callStrtoll_some, hcall, Logged.result_bind_of_ok _ rfl]
      exact congrArg Logged.result (if_neg hguard)

theorem parseLine_of_overruns (h : Overruns line) : (parseLine lineno line).result = .error .outOfBounds := by
  unfold parseLine
  rcases h with ⟨a, hu⟩ | ⟨a, x, p, b, hu, hv⟩
  · rw [parseId_of_field hu, Logged.result_bind_of_ok _ rfl]
    exact Logged.result_bind_of_error _ rfl
  · rw [parseId_of_field hu, Logged.result_bind_of_ok _ rfl]
    dsimp only [next, List.tail?_cons]
    rw [parseId_of_field hv, Logged.result_bind_of_ok _ rfl]
    exact Logged.result_bind_of_error _ rfl

theorem parseLine_of_bad (hrow : ∀ a b c, ¬ Row line a b c) (hover : ¬ Overruns line) :
    ∃ what, (parseLine lineno line).result = .error (.thrown what) := by
  unfold parseLine
  by_cases hu : ∃ a stop, Field line a stop
  · obtain ⟨a, stop, hu⟩ := hu
    rw [parseId_of_field hu, Logged.result_bind_of_ok _ rfl]
    cases stop with
    | nil => exact absurd (Or.inl ⟨a, hu⟩) hover
    | cons x p =>
        dsimp only [next, List.tail?_cons]
        by_cases hv : ∃ b stop, Field p b stop
        · obtain ⟨b, stop, hv⟩ := hv
          rw [parseId_of_field hv, Logged.result_bind_of_ok _ rfl]
          cases stop with
          | nil => exact absurd (Or.inr ⟨a, x, p, b, hu, hv⟩) hover
          | cons y q =>
              dsimp only [next, List.tail?_cons]
              rw [callStrtoll_some, Logged.result_bind_of_ok _ rfl]
              cases hread : leadingInt q with
              | none =>
                  rw [strtoll_of_none hread]
                  exact ⟨_, congrArg Logged.result (if_pos rfl)⟩
              | some r =>
                  obtain ⟨pre, rfl, ht, hrest⟩ := leadingInt_eq_some.mp (show leadingInt q = some (r.1, r.2) from hread)
                  exact absurd (Row.mk hu hv ht hrest) (hrow a b r.1)
        · rw [parseId_of_not_field (fun b stop h => hv ⟨b, stop, h⟩), Logged.result_bind_of_error _ rfl]
          exact ⟨_, rfl⟩
  · rw [parseId_of_not_field (fun a stop h => hu ⟨a, stop, h⟩), Logged.result_bind_of_error _ rfl]
    exact ⟨_, rfl⟩

theorem parseLine_cases (line : List Char) :
    (∃ a b c, Row line a b c ∧ (parseLine lineno line).result = .ok (edgeOf a b c)) ∨
      (Overruns line ∧ (parseLine lineno line).result = .error .outOfBounds) ∨
      ∃ what, (parseLine lineno line).result = .error (.thrown what) := by
  by_cases hrow : ∃ a b c, Row line a b c
  · obtain ⟨a, b, c, hrow⟩ := hrow
    exact Or.inl ⟨a, b, c, hrow, parseLine_of_row lineno hrow⟩
  · by_cases hover : Overruns line
    · exact Or.inr (Or.inl ⟨hover, parseLine_of_overruns lineno hover⟩)
    · exact Or.inr (Or.inr (parseLine_of_bad lineno (fun a b c h => hrow ⟨a, b, c, h⟩) hover))

/-- **Accepted lines are the rows.** -/
theorem parseLine_eq_ok {e : Edge} :
    (parseLine lineno line).result = .ok e ↔ ∃ a b c, Row line a b c ∧ e = edgeOf a b c := by
  constructor
  · intro h
    rcases parseLine_cases lineno line with ⟨a, b, c, hrow, hres⟩ | ⟨-, hres⟩ | ⟨what, hres⟩ <;> rw [hres] at h
    · exact ⟨a, b, c, hrow, (Except.ok.inj h).symm⟩
    · cases h
    · cases h
  · rintro ⟨a, b, c, hrow, rfl⟩
    exact parseLine_of_row lineno hrow

end line

end Tea.Csv
