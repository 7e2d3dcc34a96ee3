import Tea.Csv.Grammar
/-!
# The lines of a file

`linesOf` is `getline` called until the file ends. The data lines are the lines after the header that are not empty; the
reader handles them in order, up to the first one that it does not accept, and what that one gives is what the reader
gives.
-/

namespace Tea.Csv

/-! ### `getline` -/

theorem getline_append {line : List Char} (h : '\n' ∉ line) (rest : List Char) :
    getline (line ++ '\n' :: rest) = some (line, rest) := by
  have hline : ∀ c ∈ line, (decide (c ≠ '\n')) = true := by
    intro c hc
    have hne : c ≠ '\n' := fun heq => h (heq ▸ hc)
    simpa using hne
  have hstop : ∀ c ∈ ('\n' :: rest).head?, (decide (c ≠ '\n')) = false := by simp
  rw [getline, if_neg (by simp), CString.takeWhile_append_stop hline hstop, CString.dropWhile_append_stop hline hstop]
  rfl

theorem linesOf_append {line : List Char} (h : '\n' ∉ line) (rest : List Char) :
    linesOf (line ++ '\n' :: rest) = line :: linesOf rest := by
  induction line with
  | nil => exact if_pos rfl
  | cons c line ih =>
      obtain ⟨hc, hline⟩ : '\n' ≠ c ∧ '\n' ∉ line := by simpa using h
      rw [List.cons_append, linesOf, if_neg hc.symm, ih hline]

theorem linesOf_last {line : List Char} (h : '\n' ∉ line) (hne : line ≠ []) : linesOf line = [line] := by
  induction line with
  | nil => exact absurd rfl hne
  | cons c line ih =>
      obtain ⟨hc, hline⟩ : '\n' ≠ c ∧ '\n' ∉ line := by simpa using h
      rw [linesOf, if_neg hc.symm]
      cases line with
      | nil => rfl
      | cons d line => rw [ih hline (List.cons_ne_nil d line)]

theorem cut_line {content : List Char} (hne : content ≠ []) : ∃ line rest, '\n' ∉ line ∧
    getline content = some (line, rest) ∧ (content = line ++ '\n' :: rest ∨ content = line ∧ rest = []) := by
  have hsplit : content.takeWhile (· ≠ '\n') ++ content.dropWhile (· ≠ '\n') = content :=
    List.takeWhile_append_dropWhile
  have hline : '\n' ∉ content.takeWhile (· ≠ '\n') := by
    intro hmem
    have := List.mem_takeWhile_imp hmem
    simp at this
  refine ⟨content.takeWhile (· ≠ '\n'), (content.dropWhile (· ≠ '\n')).drop 1, hline, if_neg hne, ?_⟩
  have hstop := CString.head?_dropWhile_false (· ≠ '\n') content
  generalize content.dropWhile (· ≠ '\n') = tail at hsplit hstop
  cases tail with
  | nil => exact Or.inr ⟨by simpa using hsplit.symm, rfl⟩
  | cons c tail =>
      obtain rfl : c = '\n' := by simpa using hstop c rfl
      exact Or.inl hsplit.symm

/-- **The lines are those of the successive calls of `getline`.** -/
theorem linesOf_eq (content : List Char) : linesOf content =
    match getline content with
    | none => []
    | some (line, rest) => line :: linesOf rest := by
  rcases eq_or_ne content [] with rfl | hne
  · rfl
  · obtain ⟨line, rest, hline, hget, hcut | ⟨hcut, hrest⟩⟩ := cut_line hne
    · rw [hget, hcut, linesOf_append hline]
    · rw [hget, hrest]
      rw [hcut] at hne ⊢
      exact linesOf_last hline hne

/-! ### Data lines -/

/-- The lines after line `lineno` that are not empty, with their numbers. -/
def dataLinesFrom : (lineno : Nat) → (lines : List (List Char)) → List (Nat × List Char)
  | _, [] => []
  | lineno, line :: lines =>
      if line = [] then dataLinesFrom (lineno + 1) lines
      else (lineno + 1, line) :: dataLinesFrom (lineno + 1) lines

/-- The data lines of a file. -/
def dataLines (content : List Char) : List (Nat × List Char) :=
  match getline content with
  | none => []
  | some (_, rest) => dataLinesFrom 1 (linesOf rest)

section memory

variable {memory : Memory}

variable (memory) in
/-- The data lines up to the first one that is not accepted. -/
def handled : List (Nat × List Char) → List (Nat × List Char)
  | [] => []
  | d :: ds =>
      match (parseLine d.1 (bytesOf memory d)).result with
      | .ok _ => d :: handled ds
      | .error _ => [d]

variable (memory) in
/-- The data lines that the reader handles. -/
def handledLines (content : List Char) : List (Nat × List Char) := handled memory (dataLines content)

variable (memory) in
/-- The line gives this edge. -/
def Accepts (d : Nat × List Char) (e : Edge) : Prop := (parseLine d.1 (bytesOf memory d)).result = .ok e

theorem readRows_eq_ok {lineno : Nat} {lines : List (List Char)} {out edges : List Edge} :
    readRows memory lineno lines out = .ok edges ↔
      ∃ es, edges = out ++ es ∧ List.Forall₂ (Accepts memory) (dataLinesFrom lineno lines) es := by
  induction lines generalizing lineno out with
  | nil =>
      constructor
      · intro h
        obtain rfl : out = edges := Except.ok.inj h
        exact ⟨[], (List.append_nil out).symm, List.Forall₂.nil⟩
      · rintro ⟨es, rfl, hes⟩
        cases hes
        rw [List.append_nil]
        rfl
  | cons line lines ih =>
      rw [readRows, dataLinesFrom]
      by_cases hline : line = []
      · rw [if_pos hline, if_pos hline]
        exact ih
      rw [if_neg hline, if_neg hline]
      cases hparse : (parseLine (lineno + 1) (bytesOf memory (lineno + 1, line))).result with
      | error f =>
          constructor
          · intro h
            cases h
          · rintro ⟨es, -, hes⟩
            cases hes with
            | cons hhead _ =>
                rw [Accepts, hparse] at hhead
                cases hhead
      | ok e =>
          show readRows memory (lineno + 1) lines (out ++ [e]) = .ok edges ↔ _
          rw [ih]
          constructor
          · rintro ⟨es, rfl, hes⟩
            exact ⟨e :: es, by simp, List.Forall₂.cons hparse hes⟩
          · rintro ⟨es, rfl, hes⟩
            cases hes with
            | @cons _ e' _ es hhead htail =>
                obtain rfl : e = e' := Except.ok.inj (hparse.symm.trans hhead)
                exact ⟨es, by simp, htail⟩

theorem readRows_of_failed {lineno : Nat} {lines : List (List Char)} (out : List Edge) {d : Nat × List Char} {f : Fault}
    (hd : d ∈ handled memory (dataLinesFrom lineno lines))
    (hf : (parseLine d.1 (bytesOf memory d)).result = .error f) : readRows memory lineno lines out = .error f := by
  induction lines generalizing lineno out with
  | nil => simp [dataLinesFrom, handled] at hd
  | cons line lines ih =>
      rw [dataLinesFrom] at hd
      rw [readRows]
      by_cases hline : line = []
      · rw [if_pos hline] at hd ⊢
        exact ih out hd
      rw [if_neg hline, handled] at hd
      rw [if_neg hline]
      cases hparse : (parseLine (lineno + 1) (bytesOf memory (lineno + 1, line))).result with
      | error f' =>
          rw [hparse] at hd
          obtain rfl : d = (lineno + 1, line) := by simpa using hd
          obtain rfl : f' = f := Except.error.inj (hparse.symm.trans hf)
          rfl
      | ok e =>
          rw [hparse] at hd
          show readRows memory (lineno + 1) lines (out ++ [e]) = .error f
          rcases List.mem_cons.mp hd with rfl | hd
          · rw [hparse] at hf
            cases hf
          · exact ih _ hd

/-- **The reader returns edges exactly if every data line gives one.** -/
theorem readEdgesCsv_eq_ok {path : String} {content : List Char} {edges : List Edge} :
    readEdgesCsv memory path (some content) = .ok edges ↔
      content ≠ [] ∧ List.Forall₂ (Accepts memory) (dataLines content) edges := by
  rcases eq_or_ne content [] with rfl | hne
  · constructor
    · intro h
      cases h
    · rintro ⟨h, -⟩
      exact absurd rfl h
  · obtain ⟨line, rest, -, hget, -⟩ := cut_line hne
    unfold readEdgesCsv dataLines
    dsimp only
    rw [hget]
    dsimp only
    rw [readRows_eq_ok]
    simp [hne]

theorem readEdgesCsv_of_failed (path : String) {content : List Char} {d : Nat × List Char} {f : Fault}
    (hd : d ∈ handledLines memory content) (hf : (parseLine d.1 (bytesOf memory d)).result = .error f) :
    readEdgesCsv memory path (some content) = .error f := by
  unfold handledLines dataLines at hd
  unfold readEdgesCsv
  dsimp only
  cases hget : getline content with
  | none =>
      rw [hget] at hd
      cases hd
  | some r =>
      rw [hget] at hd
      exact readRows_of_failed [] hd hf

end memory

end Tea.Csv
