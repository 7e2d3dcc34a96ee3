import Tea.Csv.Lines
/-!
# Writing and reading

`Renders` and `Rendering` are the files that a list of edges may be written to: a line `u,v,t` in decimal for every edge,
where each number may carry a fraction, the line may end in a carriage return, and empty lines may stand anywhere after the
header. The reader undoes all of them (`readEdgesCsv_rendering`).
-/

namespace Tea.Csv

open CString

/-- A fraction: nothing, or a point and digits. -/
inductive Fraction : List Char → Prop
  | none : Fraction []
  | digits {ds : List Char} (hds : ∀ c ∈ ds, c.isDigit = true) : Fraction ('.' :: ds)

/-- The line renders the edge. -/
inductive Renders : Edge → List Char → Prop
  | mk {e : Edge} {fu fv ft cr : List Char} (hu : Fraction fu) (hv : Fraction fv) (ht : Fraction ft)
      (hcr : cr = [] ∨ cr = ['\r']) :
      Renders e (decimal e.u ++ fu ++ ',' :: (decimal e.v ++ fv ++ ',' :: (decimal e.t ++ (ft ++ cr))))

/-- What stands after the header: the lines of the edges, in order, among empty lines; the last line may lack its
newline. -/
inductive Rendering : List Edge → List Char → Prop
  | nil : Rendering [] []
  | blank {es : List Edge} {body : List Char} (h : Rendering es body) : Rendering es ('\n' :: body)
  | edge {e : Edge} {es : List Edge} {line body : List Char} (hline : Renders e line) (h : Rendering es body) :
      Rendering (e :: es) (line ++ '\n' :: body)
  | last {e : Edge} {line : List Char} (hline : Renders e line) : Rendering [e] line

theorem Fraction.mem {f : List Char} (h : Fraction f) : ∀ c ∈ f, c = '.' ∨ c.isDigit = true := by
  cases h with
  | none => simp
  | digits hds =>
      intro c hc
      rcases List.mem_cons.mp hc with rfl | hc
      · exact Or.inl rfl
      · exact Or.inr (hds c hc)

theorem field_of_fraction {f : List Char} (h : Fraction f) (n : Int) (q : List Char) :
    Field (decimal n ++ f ++ ',' :: q) n (',' :: q) := by
  rw [List.append_assoc]
  cases h with
  | none => exact Field.whole (numeral_decimal n) rfl
  | @digits ds hds =>
      refine Field.fraction (numeral_decimal n) (fun c hc => ?_) (Or.inl rfl)
      have hdigit : IsNumeric c := Or.inr (Or.inr (Or.inr (hds c hc)))
      exact ⟨hdigit.ne_nul, hdigit.ne (by decide) (by decide) (by decide) (by decide)⟩

theorem noDigit_fraction {f cr : List Char} (h : Fraction f) (hcr : cr = [] ∨ cr = ['\r']) : NoDigit (f ++ cr) := by
  intro c hc
  cases h with
  | none =>
      rcases hcr with rfl | rfl
      · cases hc
      · obtain rfl : '\r' = c := by simpa using hc
        rfl
  | digits hds =>
      obtain rfl : '.' = c := by simpa using hc
      rfl

theorem Renders.row {e : Edge} {line : List Char} (h : Renders e line) : Row line e.u e.v e.t := by
  cases h with
  | mk hu hv ht hcr =>
      exact Row.mk (field_of_fraction hu _ _) (field_of_fraction hv _ _) (numeral_decimal e.t) (noDigit_fraction ht hcr)

theorem Renders.ne_nil {e : Edge} {line : List Char} (h : Renders e line) : line ≠ [] := by
  cases h with
  | mk => simp

theorem Renders.no_newline {e : Edge} {line : List Char} (h : Renders e line) : '\n' ∉ line := by
  have hdigit : ('\n').isDigit = false := rfl
  have hdecimal : ∀ n, '\n' ∉ decimal n := by
    intro n hmem
    unfold decimal at hmem
    have htail : '\n' ∉ Nat.toDigits 10 n.natAbs := by
      intro hmem
      have := Nat.isDigit_of_mem_toDigits (by decide) (by decide) hmem
      rw [hdigit] at this
      cases this
    split_ifs at hmem
    · exact (List.mem_cons.mp hmem).elim (by decide) htail
    · exact htail hmem
  have hfraction : ∀ f, Fraction f → '\n' ∉ f := by
    intro f hf hmem
    rcases hf.mem _ hmem with heq | heq
    · cases heq
    · rw [hdigit] at heq
      cases heq
  cases h with
  | @mk fu fv ft cr hu hv ht hcr =>
      have hcr : '\n' ∉ cr := by
        rcases hcr with rfl | rfl
        · simp
        · decide
      simp only [List.mem_append, List.mem_cons, not_or]
      exact ⟨⟨hdecimal _, hfraction _ hu⟩, by decide, ⟨hdecimal _, hfraction _ hv⟩, by decide, hdecimal _,
        hfraction _ ht, hcr⟩

theorem Rendering.accepts {edges : List Edge} {body : List Char} (h : Rendering edges body)
    (hfits : ∀ e ∈ edges, Fits e.u e.v e.t) (memory : Memory) (lineno : Nat) :
    List.Forall₂ (Accepts memory) (dataLinesFrom lineno (linesOf body)) edges := by
  have haccept : ∀ {e line}, Renders e line → Fits e.u e.v e.t → ∀ lineno, Accepts memory (lineno, line) e := by
    intro e line hline he lineno
    exact (parseLine_eq_ok lineno).mpr ⟨e.u, e.v, e.t, hline.row.behind _, (edgeOf_eq_iff.mpr he).symm⟩
  induction h generalizing lineno with
  | nil => exact List.Forall₂.nil
  | @blank es body _ ih =>
      have hlines : linesOf ([] ++ '\n' :: body) = [] :: linesOf body := linesOf_append (by simp) body
      rw [List.nil_append] at hlines
      rw [hlines, dataLinesFrom, if_pos rfl]
      exact ih hfits _
  | @edge e es line body hline _ ih =>
      rw [linesOf_append hline.no_newline, dataLinesFrom, if_neg hline.ne_nil]
      refine List.Forall₂.cons (haccept hline (hfits e (by simp)) _) ?_
      exact ih (fun e he => hfits e (List.mem_cons_of_mem _ he)) _
  | @last e line hline =>
      rw [linesOf_last hline.no_newline hline.ne_nil, dataLinesFrom, if_neg hline.ne_nil]
      exact List.Forall₂.cons (haccept hline (hfits e (by simp)) _) List.Forall₂.nil

/-- **The reader undoes every rendering.** -/
theorem readEdgesCsv_rendering (memory : Memory) (path : String) {header body : List Char} {edges : List Edge}
    (hheader : '\n' ∉ header) (hbody : Rendering edges body) (hfits : ∀ e ∈ edges, Fits e.u e.v e.t) :
    readEdgesCsv memory path (some (header ++ '\n' :: body)) = .ok edges := by
  refine readEdgesCsv_eq_ok.mpr ⟨by simp, ?_⟩
  rw [dataLines, getline_append hheader]
  exact hbody.accepts hfits memory 1

/-- One edge with a negative id and fractions, after an empty line, with a carriage return and no final newline; digits
stand behind the line. -/
theorem readEdgesCsv_rendering_example :
    readEdgesCsv (fun _ => "1,2".toList) "f" (some (['u'] ++ '\n' :: '\n' :: (decimal (-7) ++ ['.', '0'] ++ ',' ::
      (decimal 2147483647 ++ [] ++ ',' :: (decimal (-9223372036854775808) ++ (['.', '2', '5'] ++ ['\r'])))))) =
      .ok [⟨-7, 2147483647, -9223372036854775808⟩] := by
  have hzero : Fraction ['.', '0'] := .digits (by simp)
  have hquarter : Fraction ['.', '2', '5'] := .digits (by simp)
  refine readEdgesCsv_rendering _ "f" (by decide) (Rendering.blank (Rendering.last ?_)) (by unfold Fits; decide)
  exact Renders.mk hzero .none hquarter (Or.inr rfl)

end Tea.Csv
