import Tea.Csv.Lines
/-!
# Reading inside the line

A line is the C string up to its first NUL. The reader stays inside it on every line except the lines of `Unclosed`,
where the fraction of one of the first two numbers runs into the NUL: the search for the comma stops there, and the step
past the separator is taken all the same.
-/

namespace Tea.Csv

open CString

/-- The comma-separated fields of a line. -/
def fieldsOf (line : List Char) : List (List Char) := (cstr line).splitOn ','

/-- The integer part of a field. -/
def integerPart (field : List Char) : Option Int := (leadingInt field).map Prod.fst

/-! ### A field of the grammar is a field of the line -/

theorem noSeparator_of_numeral {pre : List Char} {n : Int} (h : Numeral pre n) : ∀ c ∈ pre, c ≠ nul ∧ c ≠ ',' :=
  fun c hc => ⟨(h.isNumeric c hc).ne_nul, (h.isNumeric c hc).ne (by decide) (by decide) (by decide) (by decide)⟩

theorem Field.split {p stop : List Char} {n : Int} (h : Field p n stop) :
    ∃ f, p = f ++ stop ∧ (∀ c ∈ f, c ≠ nul ∧ c ≠ ',') ∧ integerPart f = some n := by
  cases h with
  | @whole pre stop n hn hstop =>
      refine ⟨pre, rfl, noSeparator_of_numeral hn, ?_⟩
      have hread : leadingInt (pre ++ []) = some (n, []) := leadingInt_of_numeral hn (by simp [NoDigit])
      rw [List.append_nil] at hread
      rw [integerPart, hread]
      rfl
  | @fraction pre tail stop n hn htail hstop =>
      refine ⟨pre ++ '.' :: tail, by simp, fun c hc => ?_, ?_⟩
      · rcases List.mem_append.mp hc with hc | hc
        · exact noSeparator_of_numeral hn c hc
        · rcases List.mem_cons.mp hc with rfl | hc
          · decide
          · exact htail c hc
      · rw [integerPart, leadingInt_of_numeral hn (noDigit_of_deref (Or.inr rfl))]
        rfl

theorem not_mem_nul {f : List Char} (h : ∀ c ∈ f, c ≠ nul ∧ c ≠ ',') : nul ∉ f := fun hmem => (h nul hmem).1 rfl

theorem fieldsOf_append {f : List Char} (h : ∀ c ∈ f, c ≠ nul ∧ c ≠ ',') (q : List Char) :
    fieldsOf (f ++ ',' :: q) = f :: fieldsOf q := by
  have hcomma : cstr (',' :: q) = ',' :: cstr q := List.takeWhile_cons_of_pos (by decide)
  rw [fieldsOf, cstr_append (not_mem_nul h), hcomma]
  exact List.splitOnP_append_cons_of_forall_mem (fun c hc => by simpa using (h c hc).2) ',' (by simp) _

theorem fieldsOf_last {f stop : List Char} (h : ∀ c ∈ f, c ≠ nul ∧ c ≠ ',') (hstop : deref stop = nul) :
    fieldsOf (f ++ stop) = [f] := by
  have hnil : cstr stop = [] := by
    cases stop with
    | nil => rfl
    | cons c stop =>
        obtain rfl : c = nul := hstop
        rfl
  rw [fieldsOf, cstr_append (not_mem_nul h), hnil, List.append_nil]
  exact List.splitOnP_eq_singleton fun c hc => by simpa using (h c hc).2

theorem eq_cons_of_deref {stop : List Char} {c : Char} (h : deref stop = c) (hc : c ≠ nul) : ∃ q, stop = c :: q := by
  cases stop with
  | nil => exact absurd h.symm hc
  | cons d q => exact ⟨q, congrArg (· :: q) h⟩

theorem Field.comma {p stop : List Char} {n : Int} (h : Field p n stop) (hout : ¬ RunsOut p) : ∃ q, stop = ',' :: q := by
  have hstop : deref stop = ',' ∨ deref stop = nul := by
    obtain ⟨rest, -, -, rfl⟩ := field_iff.mp h
    exact deref_commaOrNul rest
  rcases hstop with hstop | hstop
  · exact eq_cons_of_deref hstop (by decide)
  · exact absurd ⟨n, stop, h, hstop⟩ hout

theorem Unclosed.length_lt {line : List Char} (h : Unclosed line) : (fieldsOf line).length < 3 := by
  rcases h with ⟨a, stop, hu, hstop⟩ | ⟨a, p, hu, b, stop, hv, hstop⟩
  · obtain ⟨f, rfl, hf, -⟩ := hu.split
    rw [fieldsOf_last hf hstop]
    show 1 < 3
    omega
  · obtain ⟨f, rfl, hf, -⟩ := hu.split
    obtain ⟨g, rfl, hg, -⟩ := hv.split
    rw [fieldsOf_append hf, fieldsOf_last hg hstop]
    show 2 < 3
    omega

theorem cstr_bytesOf (memory : Memory) (d : Nat × List Char) : cstr (bytesOf memory d) = cstr d.2 := by
  unfold bytesOf
  rw [cstr, List.takeWhile_append]
  split_ifs with hall
  · have hself : d.2.takeWhile (· ≠ nul) = d.2 := (List.takeWhile_prefix _).eq_of_length hall
    rw [cstr, hself, List.takeWhile_cons_of_neg (by simp), List.append_nil]
  · rfl

theorem fieldsOf_bytesOf (memory : Memory) (d : Nat × List Char) : fieldsOf (bytesOf memory d) = fieldsOf d.2 := by
  rw [fieldsOf, cstr_bytesOf, fieldsOf]

theorem Overruns.unclosed {line : List Char} (h : Overruns line) : Unclosed line := by
  rcases h with ⟨a, hu⟩ | ⟨a, x, p, b, hu, hv⟩
  · exact Or.inl ⟨a, [], hu, rfl⟩
  · by_contra hclosed
    obtain ⟨q, hq⟩ := hu.comma fun hout => hclosed (Or.inl hout)
    obtain ⟨rfl, rfl⟩ := List.cons.inj hq
    exact hclosed (Or.inr ⟨a, p, hu, b, [], hv, rfl⟩)

theorem fieldsOf_numeral {pre rest : List Char} {n : Int} (hn : Numeral pre n) (hrest : NoDigit rest) :
    ∃ f fs, fieldsOf (pre ++ rest) = f :: fs ∧ integerPart f = some n := by
  set tail := (cstr rest).takeWhile (· ≠ ',') with htail
  have hcut : tail ++ (cstr rest).dropWhile (· ≠ ',') = cstr rest := List.takeWhile_append_dropWhile
  have hnodigit : NoDigit tail := by
    intro c hc
    cases rest with
    | nil => simp [htail] at hc
    | cons d rest =>
        have hhead : c = d := by
          by_cases hd : d = nul
          · subst hd
            simp [htail] at hc
          · have hcstr : cstr (d :: rest) = d :: cstr rest := List.takeWhile_cons_of_pos (by simpa using hd)
            rw [htail, hcstr] at hc
            by_cases hcomma : d = ','
            · subst hcomma
              simp at hc
            · rw [List.takeWhile_cons_of_pos (by simpa using hcomma)] at hc
              exact (Option.some.inj hc).symm
        exact hhead ▸ hrest d rfl
  have hpart : integerPart (pre ++ tail) = some n := by
    rw [integerPart, leadingInt_of_numeral hn hnodigit]
    rfl
  have hsep : ∀ c ∈ pre ++ tail, (c == ',') = false := by
    intro c hc
    rcases List.mem_append.mp hc with hc | hc
    · simpa using (noSeparator_of_numeral hn c hc).2
    · simpa using List.mem_takeWhile_imp hc
  have hstop := head?_dropWhile_false (· ≠ ',') (cstr rest)
  rw [fieldsOf, cstr_append (not_mem_nul (noSeparator_of_numeral hn)), ← hcut, ← List.append_assoc]
  generalize (cstr rest).dropWhile (· ≠ ',') = others at hstop
  cases others with
  | nil =>
      rw [List.append_nil]
      exact ⟨_, [], List.splitOnP_eq_singleton hsep, hpart⟩
  | cons c others =>
      obtain rfl : c = ',' := by simpa using hstop c rfl
      exact ⟨_, _, List.splitOnP_append_cons_of_forall_mem hsep ',' (by simp) others, hpart⟩

theorem Row.fields {line : List Char} {a b c : Int} (h : Row line a b c) (hclosed : ¬ Unclosed line) :
    ∃ f g t fs, fieldsOf line = f :: g :: t :: fs ∧ integerPart f = some a ∧ integerPart g = some b ∧
      integerPart t = some c := by
  cases h with
  | @mk p pre rest x y _ _ _ hu hv ht hrest =>
      obtain ⟨p', hp⟩ := hu.comma fun hout => hclosed (Or.inl hout)
      obtain ⟨rfl, rfl⟩ := List.cons.inj hp
      obtain ⟨q', hq⟩ := hv.comma fun hout => hclosed (Or.inr ⟨a, p, hu, hout⟩)
      obtain ⟨rfl, hq⟩ := List.cons.inj hq
      obtain ⟨f, rfl, hf, hfa⟩ := hu.split
      obtain ⟨g, rfl, hg, hgb⟩ := hv.split
      obtain ⟨t, fs, hfs, htc⟩ := fieldsOf_numeral ht hrest
      exact ⟨f, g, t, fs, by rw [fieldsOf_append hf, fieldsOf_append hg, hfs], hfa, hgb, htc⟩

/-! ### What is touched -/

/-- The pointer stands at or before the first NUL of the line. -/
def Seen (line p : List Char) : Prop := ∃ before, line = before ++ p ∧ nul ∉ before

section touched

variable {line p : List Char}

theorem seen_refl (line : List Char) : Seen line line := ⟨[], rfl, by simp⟩

theorem Seen.append {pre rest : List Char} (h : Seen line (pre ++ rest)) (hpre : nul ∉ pre) : Seen line rest := by
  obtain ⟨before, hline, hbefore⟩ := h
  refine ⟨before ++ pre, by rw [hline, List.append_assoc], fun hmem => ?_⟩
  exact (List.mem_append.mp hmem).elim hbefore hpre

theorem Seen.tail {c : Char} {q : List Char} (h : Seen line (c :: q)) (hc : c ≠ nul) : Seen line q := by
  have hcons : Seen line ([c] ++ q) := h
  apply hcons.append
  simpa using hc.symm

theorem Seen.length (h : Seen line p) : offsetOf line p + (cstr p).length = (cstr line).length := by
  obtain ⟨before, rfl, hbefore⟩ := h
  rw [offsetOf, cstr_append hbefore, List.length_append, List.length_append, Nat.add_sub_cancel]

theorem Seen.offsetOf_le (h : Seen line p) : offsetOf line p ≤ (cstr line).length := by
  have := h.length
  omega

theorem Seen.offsetsFrom_le (h : Seen line p) {k : Nat} (hk : k ≤ (cstr p).length + 1) :
    ∀ o ∈ offsetsFrom line p k, o ≤ (cstr line).length := by
  intro o ho
  obtain ⟨i, hi, rfl⟩ := List.mem_map.mp ho
  have hi := List.mem_range.mp hi
  have := h.length
  omega

theorem Seen.strtoll (h : Seen line p) : Seen line (strtoll p).2 := by
  cases hread : leadingInt p with
  | none =>
      rw [strtoll_of_none hread]
      exact h
  | some r =>
      obtain ⟨n, rest⟩ := r
      rw [(strtoll_of_numeral hread).1]
      obtain ⟨pre, rfl, hn, -⟩ := leadingInt_eq_some.mp hread
      exact h.append (not_mem_nul (noSeparator_of_numeral hn))

theorem commaOrNul_split (endPtr : List Char) : ∃ skipped, endPtr = skipped ++ commaOrNul endPtr ∧ nul ∉ skipped := by
  refine ⟨endPtr.takeWhile fun c => c ≠ nul && c ≠ ',', List.takeWhile_append_dropWhile.symm, fun hmem => ?_⟩
  have := List.mem_takeWhile_imp hmem
  simp at this

theorem skip_le (endPtr : List Char) :
    endPtr.length - (commaOrNul endPtr).length + 1 ≤ (cstr endPtr).length + 1 := by
  obtain ⟨skipped, hsplit, hnul⟩ := commaOrNul_split endPtr
  have hlen := congrArg List.length hsplit
  have hcstr : (cstr endPtr).length = skipped.length + (cstr (commaOrNul endPtr)).length := by
    conv_lhs => rw [hsplit]
    rw [cstr_append hnul, List.length_append]
  rw [List.length_append] at hlen
  omega

theorem Seen.parseId_le (h : Seen line p) (name : String) (lineno : Nat) :
    ∀ o ∈ (parseId name lineno line (some p)).touched, o ≤ (cstr line).length := by
  have hcall := h.offsetsFrom_le (strtollLooksAt_le p)
  by_cases hfield : ∃ n stop, Field p n stop
  · obtain ⟨n, stop, hfield⟩ := hfield
    have hstop : stop = commaOrNul (CString.strtoll p).2 := by
      obtain ⟨rest, hread, -, rfl⟩ := field_iff.mp hfield
      rw [(strtoll_of_numeral hread).1]
    rw [parseId_of_field hfield, hstop]
    intro o ho
    rcases List.mem_append.mp ho with ho | ho
    · exact hcall o ho
    · rcases List.mem_cons.mp ho with rfl | ho
      · exact h.strtoll.offsetOf_le
      · exact h.strtoll.offsetsFrom_le (skip_le _) o ho
  · rw [parseId_of_not_field fun n stop hn => hfield ⟨n, stop, hn⟩]
    intro o ho
    rcases List.mem_append.mp ho with ho | ho
    · exact hcall o ho
    · obtain rfl : o = _ := by simpa using ho
      exact h.strtoll.offsetOf_le

theorem Seen.next_of_ok (h : Seen line p) (hout : ¬ RunsOut p) {name : String} {lineno : Nat}
    {r : Int × Option (List Char)} (hr : (parseId name lineno line (some p)).result = .ok r) :
    ∃ n q, Field p n (',' :: q) ∧ r = (clampLongLong n, some q) ∧ Seen line q := by
  by_cases hfield : ∃ n stop, Field p n stop
  · obtain ⟨n, stop, hfield⟩ := hfield
    obtain ⟨q, rfl⟩ := hfield.comma hout
    rw [parseId_of_field hfield] at hr
    obtain ⟨f, rfl, hf, -⟩ := hfield.split
    exact ⟨n, q, hfield, (Except.ok.inj hr).symm, (h.append (not_mem_nul hf)).tail (by decide)⟩
  · rw [parseId_of_not_field fun n stop hn => hfield ⟨n, stop, hn⟩] at hr
    cases hr

theorem callStrtoll_le (h : Seen line p) : ∀ o ∈ (callStrtoll line (some p)).touched, o ≤ (cstr line).length := by
  rw [callStrtoll_some]
  exact h.offsetsFrom_le (strtollLooksAt_le p)

/-- A closed line is read inside. -/
theorem parseLine_le (lineno : Nat) (hclosed : ¬ Unclosed line) :
    ∀ o ∈ (parseLine lineno line).touched, o ≤ (cstr line).length := by
  intro o ho
  have hline := seen_refl line
  unfold parseLine at ho
  rcases Logged.mem_touched_bind.mp ho with ho | ⟨r, hr, ho⟩
  · exact hline.parseId_le _ _ o ho
  obtain ⟨a, p, hu, rfl, hp⟩ := hline.next_of_ok (fun hout => hclosed (Or.inl hout)) hr
  rcases Logged.mem_touched_bind.mp ho with ho | ⟨r, hr, ho⟩
  · exact hp.parseId_le _ _ o ho
  obtain ⟨b, q, hv, rfl, hq⟩ := hp.next_of_ok (fun hout => hclosed (Or.inr ⟨a, p, hu, hout⟩)) hr
  rcases Logged.mem_touched_bind.mp ho with ho | ⟨⟨t, endPtr⟩, hr, ho⟩
  · exact callStrtoll_le hq o ho
  dsimp only at ho
  split at ho
  · simp [Logged.throw] at ho
  · simp [pure] at ho

theorem callStrtoll_next_outside {n : Int} {stop : List Char} (h : Seen line p) (hfield : Field p n stop)
    (hstop : deref stop = nul) : ∃ o ∈ (callStrtoll line (next stop)).touched, (cstr line).length < o := by
  obtain ⟨f, rfl, hf, -⟩ := hfield.split
  have hseen : Seen line stop := h.append (not_mem_nul hf)
  have hlen := hseen.length
  cases stop with
  | nil =>
      refine ⟨line.length + 1, ?_, ?_⟩
      · show line.length + 1 ∈ [line.length + 1]
        simp
      · exact Nat.lt_succ_of_le (List.takeWhile_sublist _).length_le
  | cons c q =>
      obtain rfl : c = nul := hstop
      refine ⟨offsetOf line q, ?_, ?_⟩
      · show offsetOf line q ∈ (callStrtoll line (some q)).touched
        rw [callStrtoll_some]
        exact List.mem_map.mpr ⟨0, List.mem_range.mpr (Nat.succ_pos _), rfl⟩
      · obtain ⟨before, rfl, -⟩ := hseen
        rw [← hlen]
        simp only [offsetOf, cstr_nul, List.length_append, List.length_cons, List.length_nil]
        omega

/-- A line that is not closed is not read inside. -/
theorem parseLine_outside (lineno : Nat) (h : Unclosed line) :
    ∃ o ∈ (parseLine lineno line).touched, (cstr line).length < o := by
  have hline := seen_refl line
  unfold parseLine
  rcases h with ⟨a, stop, hu, hstop⟩ | ⟨a, p, hu, b, stop, hv, hstop⟩
  · obtain ⟨o, ho, hlt⟩ := callStrtoll_next_outside hline hu hstop
    refine ⟨o, Logged.mem_touched_bind.mpr (Or.inr ⟨(clampLongLong a, next stop), ?_, ?_⟩), hlt⟩
    · rw [parseId_of_field hu]
    · apply Logged.mem_touched_bind.mpr
      left
      unfold parseId
      exact Logged.mem_touched_bind.mpr (Or.inl ho)
  · have hp : Seen line p := by
      obtain ⟨f, rfl, hf, -⟩ := hu.split
      exact (hline.append (not_mem_nul hf)).tail (by decide)
    obtain ⟨o, ho, hlt⟩ := callStrtoll_next_outside hp hv hstop
    refine ⟨o, Logged.mem_touched_bind.mpr (Or.inr ⟨(clampLongLong a, some p), ?_, ?_⟩), hlt⟩
    · rw [parseId_of_field hu]
      rfl
    · refine Logged.mem_touched_bind.mpr (Or.inr ⟨(clampLongLong b, next stop), ?_, ?_⟩)
      · rw [parseId_of_field hv]
      · exact Logged.mem_touched_bind.mpr (Or.inl ho)

end touched

/-! ### The reader -/

/-- The line is read inside, and it is an error unless it has three fields. -/
structure InsideLine (memory : Memory) (path : String) (content : List Char) (d : Nat × List Char) : Prop where
  touched : ∀ o ∈ (parseLine d.1 (bytesOf memory d)).touched, o ≤ (cstr d.2).length
  throws : (fieldsOf d.2).length < 3 → ∃ what, readEdgesCsv memory path (some content) = .error (.thrown what)

/-- **The reader stays inside the lines it handles exactly if none of them is unclosed**, whatever stands behind them. -/
theorem readEdgesCsv_inside_iff (memory : Memory) (path : String) (content : List Char) :
    (∀ d ∈ handledLines memory content, InsideLine memory path content d) ↔
      ∀ d ∈ handledLines memory content, ¬ Unclosed d.2 := by
  constructor
  · intro h d hd hunclosed
    obtain ⟨o, ho, hlt⟩ := parseLine_outside d.1 ((unclosed_behind (memory d.1)).mpr hunclosed)
    have hle := (h d hd).touched o ho
    rw [← bytesOf, cstr_bytesOf] at hlt
    omega
  · intro h d hd
    have hclosed : ¬ Unclosed (bytesOf memory d) := mt (unclosed_behind (memory d.1)).mp (h d hd)
    refine ⟨fun o ho => cstr_bytesOf memory d ▸ parseLine_le d.1 hclosed o ho, fun hfields => ?_⟩
    by_cases hrow : ∃ a b c, Row (bytesOf memory d) a b c
    · obtain ⟨a, b, c, hrow⟩ := hrow
      obtain ⟨f, g, t, fs, hfs, -⟩ := hrow.fields hclosed
      rw [fieldsOf_bytesOf] at hfs
      rw [hfs, List.length_cons, List.length_cons, List.length_cons] at hfields
      omega
    · have hover : ¬ Overruns (bytesOf memory d) := fun hover => hclosed hover.unclosed
      obtain ⟨what, hwhat⟩ := parseLine_of_bad d.1 (fun a b c hr => hrow ⟨a, b, c, hr⟩) hover
      exact ⟨what, readEdgesCsv_of_failed path hd hwhat⟩

/-- The single field `1.0`: the second call of `strtoll` gets the pointer behind the NUL. -/
theorem readEdgesCsv_not_inside :
    ¬ ∀ d ∈ handledLines (fun _ => []) "h\n1.0\n".toList, InsideLine (fun _ => []) "f" "h\n1.0\n".toList d := by
  intro h
  have hd : (2, "1.0".toList) ∈ handledLines (fun _ => []) "h\n1.0\n".toList := by decide
  have := (h _ hd).touched 4 (by decide)
  exact absurd this (by decide)

end Tea.Csv
