import Tea.Csv.Lines
/-!
# The errors of the reader

A text that is no row has a first field that the reader objects to (`BadField`), unless it overruns. The reader fails at the
first data line whose bytes are no row, with the name of that field and the number of that line
(`readEdgesCsv_error_iff`). The lines after it do not matter, and what stands behind a line in memory matters only where a
fraction runs to the line's end.
-/

namespace Tea.Csv

open CString

/-- A number stands at `p`. -/
def NumberAt (p : List Char) : Prop := ∃ pre rest c, p = pre ++ rest ∧ Numeral pre c ∧ NoDigit rest

/-- The field that the reader objects to. -/
inductive BadField : (line : List Char) → (name : String) → Prop
  | u {line : List Char} (h : ∀ a stop, ¬ Field line a stop) : BadField line "u"
  | v {line p : List Char} {x : Char} {a : Int} (hu : Field line a (x :: p)) (h : ∀ b stop, ¬ Field p b stop) :
      BadField line "v"
  | ts {line p q : List Char} {x y : Char} {a b : Int} (hu : Field line a (x :: p)) (hv : Field p b (y :: q))
      (h : ¬ NumberAt q) : BadField line "ts"

/-- What the reader makes of a text that is no row. -/
inductive Diagnosed (lineno : Nat) (line : List Char) : Fault → Prop
  | overruns (h : Overruns line) : Diagnosed lineno line .outOfBounds
  | bad {name : String} (h : BadField line name) : Diagnosed lineno line (bad name lineno)

/-! ### A line -/

section line

variable {line : List Char} (lineno : Nat)

theorem leadingInt_eq_none {p : List Char} (h : ¬ NumberAt p) : leadingInt p = none := by
  cases hread : leadingInt p with
  | none => rfl
  | some r =>
      obtain ⟨pre, hp, hn, hrest⟩ := leadingInt_eq_some.mp (show leadingInt p = some (r.1, r.2) from hread)
      exact absurd ⟨pre, r.2, r.1, hp, hn, hrest⟩ h

theorem parseLine_of_badField {name : String} (h : BadField line name) :
    (parseLine lineno line).result = .error (bad name lineno) := by
  unfold parseLine
  cases h with
  | u h => rw [parseId_of_not_field h, Logged.result_bind_of_error _ rfl]
  | v hu h =>
      rw [parseId_of_field hu, Logged.result_bind_of_ok _ rfl]
      dsimp only [next, List.tail?_cons]
      rw [parseId_of_not_field h, Logged.result_bind_of_error _ rfl]
  | ts hu hv h =>
      rw [parseId_of_field hu, Logged.result_bind_of_ok _ rfl]
      dsimp only [next, List.tail?_cons]
      rw [parseId_of_field hv, Logged.result_bind_of_ok _ rfl]
      dsimp only [next, List.tail?_cons]
      rw [callStrtoll_some, strtoll_of_none (leadingInt_eq_none h), Logged.result_bind_of_ok _ rfl]
      exact congrArg Logged.result (if_pos rfl)

theorem row_or_not (line : List Char) :
    (∃ a b c, Row line a b c) ∨ Overruns line ∨ ∃ name, BadField line name := by
  by_cases hu : ∃ a stop, Field line a stop
  · obtain ⟨a, stop, hu⟩ := hu
    cases stop with
    | nil => exact .inr (.inl (.inl ⟨a, hu⟩))
    | cons x p =>
        by_cases hv : ∃ b stop, Field p b stop
        · obtain ⟨b, stop, hv⟩ := hv
          cases stop with
          | nil => exact .inr (.inl (.inr ⟨a, x, p, b, hu, hv⟩))
          | cons y q =>
              by_cases ht : NumberAt q
              · obtain ⟨pre, rest, c, rfl, ht, hrest⟩ := ht
                exact .inl ⟨a, b, c, .mk hu hv ht hrest⟩
              · exact .inr (.inr ⟨"ts", .ts hu hv ht⟩)
        · exact .inr (.inr ⟨"v", .v hu fun b stop h => hv ⟨b, stop, h⟩⟩)
  · exact .inr (.inr ⟨"u", .u fun a stop h => hu ⟨a, stop, h⟩⟩)

/-- **The errors of a line.** -/
theorem parseLine_eq_error {f : Fault} : (parseLine lineno line).result = .error f ↔ Diagnosed lineno line f := by
  constructor
  · intro h
    obtain ⟨a, b, c, hrow⟩ | hover | ⟨name, hbad⟩ := row_or_not line
    · rw [parseLine_of_row lineno hrow] at h
      cases h
    · rw [parseLine_of_overruns lineno hover] at h
      cases h
      exact .overruns hover
    · rw [parseLine_of_badField lineno hbad] at h
      cases h
      exact .bad hbad
  · intro h
    cases h with
    | overruns h => exact parseLine_of_overruns lineno h
    | bad h => exact parseLine_of_badField lineno h

end line

/-! ### Behind the line -/

section behind

variable {line : List Char} (s : List Char)

theorem NumberAt.of_behind {p : List Char} (h : NumberAt (p ++ nul :: s)) : NumberAt p := by
  obtain ⟨pre, rest, c, hp, hn, hrest⟩ := h
  obtain ⟨r, rfl, rfl⟩ := split_before_nul s hp fun hmem => (hn.isNumeric _ hmem).ne_nul rfl
  exact ⟨pre, r, c, rfl, hn, (noDigit_behind s).mp hrest⟩

theorem BadField.behind {name : String} (h : BadField line name) : BadField (line ++ nul :: s) name := by
  have hfield : ∀ {p : List Char}, (∀ n stop, ¬ Field p n stop) → ∀ n stop, ¬ Field (p ++ nul :: s) n stop := by
    intro p hp n stop hbehind
    obtain ⟨stop₀, hstop₀, -⟩ := (field_behind_iff s).mp hbehind
    exact hp n stop₀ hstop₀
  cases h with
  | u h => exact .u (hfield h)
  | @v p x a hu h => exact .v ((field_behind_iff s).mpr ⟨x :: p, hu, rfl⟩) (hfield h)
  | @ts p q x y a b hu hv h =>
      exact .ts ((field_behind_iff s).mpr ⟨x :: p, hu, rfl⟩) ((field_behind_iff s).mpr ⟨y :: q, hv, rfl⟩)
        fun hnumber => h (hnumber.of_behind s)

/-- A line that does not overrun gives what its own characters give. -/
theorem parseLine_behind (lineno : Nat) (hover : ¬ Overruns line) :
    (parseLine lineno (line ++ nul :: s)).result = (parseLine lineno line).result := by
  obtain ⟨a, b, c, hrow⟩ | hline | ⟨name, hbad⟩ := row_or_not line
  · rw [parseLine_of_row lineno hrow, parseLine_of_row lineno (hrow.behind s)]
  · exact absurd hline hover
  · rw [parseLine_of_badField lineno hbad, parseLine_of_badField lineno (hbad.behind s)]

theorem diagnosed_behind_iff {lineno : Nat} {f : Fault} (hover : ¬ Overruns line) :
    Diagnosed lineno (line ++ nul :: s) f ↔ Diagnosed lineno line f := by
  rw [← parseLine_eq_error, ← parseLine_eq_error, parseLine_behind s lineno hover]

end behind

/-! ### The file -/

section file

variable {memory : Memory}

variable (memory) in
/-- The bytes from the line on are a row. -/
def Passes (d : Nat × List Char) : Prop := ∃ a b c, Row (bytesOf memory d) a b c

theorem readRows_eq_error {lineno : Nat} {lines : List (List Char)} {out : List Edge} {f : Fault} :
    readRows memory lineno lines out = .error f ↔ ∃ before d after, dataLinesFrom lineno lines = before ++ d :: after ∧
      (∀ d' ∈ before, Passes memory d') ∧ Diagnosed d.1 (bytesOf memory d) f := by
  induction lines generalizing lineno out with
  | nil =>
      constructor
      · intro h
        cases h
      · rintro ⟨before, d, after, hsplit, -⟩
        simp [dataLinesFrom] at hsplit
  | cons line lines ih =>
      rw [readRows, dataLinesFrom]
      by_cases hempty : line = []
      · rw [if_pos hempty, if_pos hempty]
        exact ih
      rw [if_neg hempty, if_neg hempty]
      cases hparse : (parseLine (lineno + 1) (bytesOf memory (lineno + 1, line))).result with
      | error f' =>
          constructor
          · intro h
            obtain rfl : f' = f := Except.error.inj h
            exact ⟨[], _, _, rfl, by simp, (parseLine_eq_error _).mp hparse⟩
          · rintro ⟨before, d, after, hsplit, hbefore, hdiag⟩
            cases before with
            | nil =>
                obtain ⟨rfl, -⟩ := List.cons.inj hsplit
                rw [← hparse, (parseLine_eq_error _).mpr hdiag]
                rfl
            | cons d' before =>
                -- the line would be a row
                obtain ⟨rfl, -⟩ := List.cons.inj hsplit
                obtain ⟨a, b, c, hrow⟩ := hbefore _ List.mem_cons_self
                rw [parseLine_of_row _ hrow] at hparse
                cases hparse
      | ok e =>
          obtain ⟨a, b, c, hrow, -⟩ := (parseLine_eq_ok _).mp hparse
          show readRows memory (lineno + 1) lines (out ++ [e]) = .error f ↔ _
          rw [ih]
          constructor
          · rintro ⟨before, d, after, hsplit, hbefore, hdiag⟩
            refine ⟨(lineno + 1, line) :: before, d, after, by rw [hsplit]; rfl, ?_, hdiag⟩
            exact List.forall_mem_cons.mpr ⟨⟨a, b, c, hrow⟩, hbefore⟩
          · rintro ⟨before, d, after, hsplit, hbefore, hdiag⟩
            cases before with
            | nil =>
                obtain ⟨rfl, -⟩ := List.cons.inj hsplit
                rw [(parseLine_eq_error _).mpr hdiag] at hparse
                cases hparse
            | cons d' before =>
                exact ⟨before, d, after, (List.cons.inj hsplit).2, (List.forall_mem_cons.mp hbefore).2, hdiag⟩

theorem head_mem_handled (d : Nat × List Char) (ds : List (Nat × List Char)) : d ∈ handled memory (d :: ds) := by
  rw [handled]
  split <;> exact List.mem_cons_self

/-- Where no line overruns, the memory does not matter. -/
theorem readRows_memory (memory' : Memory) {lineno : Nat} {lines : List (List Char)} (out : List Edge)
    (h : ∀ d ∈ handled memory (dataLinesFrom lineno lines), ¬ Overruns d.2) :
    readRows memory' lineno lines out = readRows memory lineno lines out := by
  induction lines generalizing lineno out with
  | nil => rfl
  | cons line lines ih =>
      rw [dataLinesFrom] at h
      rw [readRows, readRows]
      by_cases hempty : line = []
      · rw [if_pos hempty] at h
        rw [if_pos hempty, if_pos hempty]
        exact ih out h
      rw [if_neg hempty] at h
      have hover : ¬ Overruns line := h _ (head_mem_handled _ _)
      rw [if_neg hempty, if_neg hempty, bytesOf, bytesOf, parseLine_behind _ _ hover, parseLine_behind _ _ hover]
      cases hparse : (parseLine (lineno + 1) line).result with
      | error f => rfl
      | ok e =>
          have hbytes : (parseLine (lineno + 1) (bytesOf memory (lineno + 1, line))).result = .ok e := by
            rw [bytesOf, parseLine_behind _ _ hover, hparse]
          rw [handled, hbytes] at h
          exact ih _ fun d hd => h d (List.mem_cons_of_mem _ hd)

theorem readEdgesCsv_memory (memory' : Memory) (path : String) {content : List Char}
    (h : ∀ d ∈ handledLines memory content, ¬ Overruns d.2) :
    readEdgesCsv memory' path (some content) = readEdgesCsv memory path (some content) := by
  unfold handledLines dataLines at h
  unfold readEdgesCsv
  dsimp only
  cases hget : getline content with
  | none => rfl
  | some r =>
      rw [hget] at h
      exact readRows_memory memory' [] h

end file

/-- **The errors of the reader**: an empty file, or the first data line that is no row, by its number and its first bad
field. What stands behind a line matters only if it overruns. -/
theorem readEdgesCsv_error_iff (memory : Memory) (path : String) (content : List Char) (f : Fault) :
    (readEdgesCsv memory path (some content) = .error f ↔
      (content = [] ∧ f = .thrown ("empty CSV: " ++ path)) ∨
      ∃ before d after, dataLines content = before ++ d :: after ∧
        (∀ d' ∈ before, Passes memory d') ∧ Diagnosed d.1 (bytesOf memory d) f) ∧
    ∀ d : Nat × List Char, ¬ Overruns d.2 →
      (Passes memory d ↔ ∃ a b c, Row d.2 a b c) ∧ (Diagnosed d.1 (bytesOf memory d) f ↔ Diagnosed d.1 d.2 f) := by
  refine ⟨?_, fun d hover => ⟨by simp only [Passes, bytesOf, row_behind_iff _ hover], diagnosed_behind_iff _ hover⟩⟩
  rcases eq_or_ne content [] with rfl | hne
  · constructor
    · intro h
      exact .inl ⟨rfl, (Except.error.inj h).symm⟩
    · rintro (⟨-, rfl⟩ | ⟨before, d, after, hlines, -⟩)
      · rfl
      · simp [dataLines, getline] at hlines
  · obtain ⟨header, rest, -, hget, -⟩ := cut_line hne
    rw [or_iff_right fun h => hne h.1]
    unfold readEdgesCsv dataLines
    dsimp only
    rw [hget]
    exact readRows_eq_error

example : readEdgesCsv (fun _ => []) "f" (some "u,i,ts\n0,1,5\n\n0,x,7\n".toList) = .error (bad "v" 4) := by decide

end Tea.Csv
