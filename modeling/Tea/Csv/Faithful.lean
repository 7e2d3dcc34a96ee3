import Tea.Csv.Bounds
/-!
# What an accepted line is turned into

The numbers of a line pass through the saturation of `strtoll` and, for the ids, through a cast to `int32_t`. The edge
has the integer parts of the line's fields exactly where they fit, and where the commas of the row are commas: a fraction
that runs into a NUL lets the reader go on behind the end of the C string, where it takes for fields what earlier lines
have left in memory.
-/

namespace Tea.Csv

open CString

/-- The edge has the integer parts of the first three fields. -/
def HasFields (line : List Char) (e : Edge) : Prop :=
  ∃ f g t fs, fieldsOf line = f :: g :: t :: fs ∧ integerPart f = some e.u ∧ integerPart g = some e.v ∧
    integerPart t = some e.t

/-- The edge of an accepted line has the line's fields, and values that do not fit are an error. -/
structure FaithfulLine (memory : Memory) (path : String) (content : List Char) (d : Nat × List Char) : Prop where
  edge : ∀ e, Accepts memory d e → HasFields d.2 e
  throws : ∀ e, HasFields d.2 e → ¬ Fits e.u e.v e.t →
    ∃ what, readEdgesCsv memory path (some content) = .error (.thrown what)

theorem hasFields_bytesOf (memory : Memory) (d : Nat × List Char) (e : Edge) :
    HasFields (bytesOf memory d) e ↔ HasFields d.2 e := by
  rw [HasFields, fieldsOf_bytesOf, HasFields]

theorem Row.hasFields_iff {line : List Char} {a b c : Int} (h : Row line a b c) (hclosed : ¬ Unclosed line) {e : Edge} :
    HasFields line e ↔ e = ⟨a, b, c⟩ := by
  obtain ⟨f, g, t, fs, hfs, hf, hg, ht⟩ := h.fields hclosed
  constructor
  · rintro ⟨f', g', t', fs', hfs', hf', hg', ht'⟩
    have heq : f :: g :: t :: fs = f' :: g' :: t' :: fs' := hfs.symm.trans hfs'
    simp only [List.cons.injEq] at heq
    obtain ⟨rfl, rfl, rfl, -⟩ := heq
    have hu : e.u = a := Option.some.inj (hf'.symm.trans hf)
    have hv : e.v = b := Option.some.inj (hg'.symm.trans hg)
    have htime : e.t = c := Option.some.inj (ht'.symm.trans ht)
    rw [← hu, ← hv, ← htime]
  · rintro rfl
    exact ⟨f, g, t, fs, hfs, hf, hg, ht⟩

theorem HasFields.not_unclosed {line : List Char} {e : Edge} (h : HasFields line e) : ¬ Unclosed line := by
  intro hunclosed
  obtain ⟨f, g, t, fs, hfs, -⟩ := h
  have hlt := hunclosed.length_lt
  rw [hfs, List.length_cons, List.length_cons, List.length_cons] at hlt
  omega

/-- **The reader is faithful exactly if the rows it handles are closed and their values fit**, whatever stands behind the
lines. -/
theorem readEdgesCsv_faithful_iff (memory : Memory) (path : String) (content : List Char) :
    (∀ d ∈ handledLines memory content, FaithfulLine memory path content d) ↔
      ∀ d ∈ handledLines memory content, ∀ a b c, Row (bytesOf memory d) a b c → ¬ Unclosed d.2 ∧ Fits a b c := by
  have hclosed_iff : ∀ d, Unclosed (bytesOf memory d) ↔ Unclosed d.2 := fun d => unclosed_behind (memory d.1)
  constructor
  · intro h d hd a b c hrow
    have hfields := (h d hd).edge _ (parseLine_of_row d.1 hrow)
    have hclosed := hfields.not_unclosed
    rw [← hasFields_bytesOf memory, hrow.hasFields_iff (mt (hclosed_iff d).mp hclosed)] at hfields
    exact ⟨hclosed, edgeOf_eq_iff.mp hfields⟩
  · intro h d hd
    refine ⟨fun e he => ?_, fun e he hfits => ?_⟩
    · obtain ⟨a, b, c, hrow, rfl⟩ := (parseLine_eq_ok d.1).mp he
      obtain ⟨hclosed, hfits⟩ := h d hd a b c hrow
      rw [← hasFields_bytesOf memory, hrow.hasFields_iff (mt (hclosed_iff d).mp hclosed), edgeOf_eq_iff]
      exact hfits
    · have hclosed := mt (hclosed_iff d).mp he.not_unclosed
      have hrow : ∀ a b c, ¬ Row (bytesOf memory d) a b c := by
        intro a b c hrow
        rw [← hasFields_bytesOf memory, hrow.hasFields_iff hclosed] at he
        subst he
        exact hfits (h d hd a b c hrow).2
      obtain ⟨what, hwhat⟩ := parseLine_of_bad d.1 hrow fun hover => hclosed hover.unclosed
      exact ⟨what, readEdgesCsv_of_failed path hd hwhat⟩

/-- The id 4294967296 becomes 0. -/
theorem readEdgesCsv_not_faithful :
    ¬ ∀ d ∈ handledLines (fun _ => []) "h\n4294967296,1,5\n".toList,
      FaithfulLine (fun _ => []) "f" "h\n4294967296,1,5\n".toList d := by
  intro h
  have hd : (2, "4294967296,1,5".toList) ∈ handledLines (fun _ => []) "h\n4294967296,1,5\n".toList := by decide
  have haccept : Accepts (fun _ => []) (2, "4294967296,1,5".toList) ⟨0, 1, 5⟩ := by
    show (parseLine 2 (bytesOf (fun _ => []) (2, "4294967296,1,5".toList))).result = .ok ⟨0, 1, 5⟩
    decide
  obtain ⟨f, g, t, fs, hfs, hf, -⟩ := (h _ hd).edge _ haccept
  have hfields : fieldsOf "4294967296,1,5".toList = ["4294967296".toList, "1".toList, "5".toList] := by decide
  have hread : integerPart "4294967296".toList = some 4294967296 := by decide
  obtain rfl : f = "4294967296".toList := (List.cons.inj (hfs.symm.trans hfields)).1
  rw [hread] at hf
  cases hf

end Tea.Csv
