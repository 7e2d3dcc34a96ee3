import Tea.Cli.EndToEnd
import Tea.Csv.RoundTrip
/-!
# Handing an input to the programs

`commandLine` writes arguments down, and a rendering writes edges down. Every accepted configuration and every list of
edges whose values fit can be handed to the programs so, and arrives as it is (`loadInput_commandLine`).
-/

namespace Tea.Cli

open Arith CString Csv

variable {R ρ : Type}

/-- The arguments written down; `bound` stands for the text of the bound. -/
def commandLine (prog bound : String) (args : CliArgs R) : List String :=
  [prog, args.filePath, pickerToStr args.picker, variantToStr args.variant, if args.isDirected then "1" else "0",
    String.ofList (decimal args.numWalksPerNode), String.ofList (decimal args.maxWalkLen), bound]

theorem atoi_decimal {n : Int} (h : IsInt32 n) : atoi (String.ofList (decimal n)) = n := by
  have hread : leadingInt (decimal n) = some (n, []) := by
    have hend : NoDigit [] := fun c hc => nomatch hc
    have h := leadingInt_of_numeral (numeral_decimal n) hend
    rwa [List.append_nil] at h
  have hfits := h
  obtain ⟨hlo, hhi⟩ := hfits
  rw [atoi, String.toList_ofList, (strtoll_of_numeral hread).1, clampLongLong_of_fits (by omega), toInt32_of_isInt32 h]

section parse

variable [Arith R] {atof : String → R} {args : CliArgs R} {prog bound : String}

omit [Arith R] in
theorem accepted_commandLine (hhelp : ¬ (args.filePath = "--help" ∨ args.filePath = "-h")) :
    Accepted (commandLine prog bound args) := by
  have hnodes := args.numWalksPerNode_pos
  have hlen := args.maxWalkLen_pos
  constructor
  case file => simp [commandLine]
  case no_help => exact hhelp
  case picker => exact ⟨args.picker, rfl⟩
  case variant => exact ⟨args.variant, rfl⟩
  case nodes =>
    show ¬ atoi (String.ofList (decimal args.numWalksPerNode)) ≤ 0
    rw [atoi_decimal args.numWalksPerNode_fits]
    omega
  case len =>
    show ¬ atoi (String.ofList (decimal args.maxWalkLen)) ≤ 0
    rw [atoi_decimal args.maxWalkLen_fits]
    omega

omit [Arith R] in
theorem pickerToStr_injective : Function.Injective pickerToStr := by
  intro p p' h
  have hparse := parsePicker_pickerToStr p
  rw [h, parsePicker_pickerToStr] at hparse
  exact (Except.ok.inj hparse).symm

omit [Arith R] in
theorem variantToStr_injective : Function.Injective variantToStr := by
  intro v v' h
  have hparse := parseVariant_variantToStr v
  rw [h, parseVariant_variantToStr] at hparse
  exact (Except.ok.inj hparse).symm

theorem CliArgs.Of.unique {argv : List String} {args' : CliArgs R} (h : CliArgs.Of atof argv args)
    (h' : CliArgs.Of atof argv args') : args' = args := by
  have hpicker : args'.picker = args.picker := pickerToStr_injective (h'.picker.symm.trans h.picker)
  have hvariant : args'.variant = args.variant := variantToStr_injective (h'.variant.symm.trans h.variant)
  have hfile := h'.filePath.trans h.filePath.symm
  have hdir := h'.isDirected.trans h.isDirected.symm
  have hnodes := h'.numWalksPerNode.trans h.numWalksPerNode.symm
  have hlen := h'.maxWalkLen.trans h.maxWalkLen.symm
  have hbound := h'.timescaleBound.trans h.timescaleBound.symm
  cases args
  cases args'
  rw [CliArgs.mk.injEq]
  exact ⟨hfile, hpicker, hvariant, hdir, hnodes, hlen, hbound⟩

theorem of_commandLine (hbound : atof bound = args.timescaleBound) : CliArgs.Of atof (commandLine prog bound args) args := by
  constructor
  case filePath => rfl
  case picker => rfl
  case variant => rfl
  case isDirected =>
    show args.isDirected = (atoi (if args.isDirected then "1" else "0") != 0)
    cases args.isDirected <;> decide
  case numWalksPerNode => exact (atoi_decimal args.numWalksPerNode_fits).symm
  case maxWalkLen => exact (atoi_decimal args.maxWalkLen_fits).symm
  case timescaleBound => exact hbound.symm

theorem parseCliArgs_commandLine (hhelp : ¬ (args.filePath = "--help" ∨ args.filePath = "-h"))
    (hbound : atof bound = args.timescaleBound) : parseCliArgs atof (commandLine prog bound args) = .ok args := by
  obtain ⟨args', hok, hof⟩ :=
    (parseCliArgs_decides atof (commandLine prog bound args)).complete (accepted_commandLine hhelp)
  rw [hok, (of_commandLine hbound).unique hof]

end parse

/-- **Every configuration and every input reaches the programs unchanged**, if the values of the edges fit their types. -/
theorem loadInput_commandLine [Arith R] (world : World R ρ) (args : CliArgs R) (prog : String) {bound : String}
    (hhelp : ¬ (args.filePath = "--help" ∨ args.filePath = "-h")) (hbound : world.atof bound = args.timescaleBound)
    {header body : List Char} {edges : List Edge} (hheader : '\n' ∉ header) (hbody : Rendering edges body)
    (hfits : ∀ e ∈ edges, Fits e.u e.v e.t) (hfile : world.file args.filePath = some (header ++ '\n' :: body)) :
    loadInput world (commandLine prog bound args) = .ok (args, edges) := by
  have hread : readEdgesCsv world.memory args.filePath (world.file args.filePath) = .ok edges := by
    rw [hfile]
    refine readEdgesCsv_eq_ok.mpr ⟨by simp, ?_⟩
    rw [dataLines, getline_append hheader]
    exact hbody.accepts hfits _ 1
  unfold loadInput
  rw [parseCliArgs_commandLine hhelp hbound]
  show ((readEdgesCsv world.memory args.filePath (world.file args.filePath)).mapError Stop.ofFault >>= fun edges =>
    (pure (args, edges) : Except Stop (CliArgs R × List Edge))) = _
  rw [hread]
  rfl

/-- Two edges with fractions, a carriage return and an empty line. -/
theorem loadInput_commandLine_twoEdges :
    let first := decimal 0 ++ ['.', '5'] ++ ',' :: (decimal 1 ++ [] ++ ',' :: (decimal 5 ++ (['.', '0'] ++ ['\r'])))
    let second := decimal 2 ++ [] ++ ',' :: (decimal 1 ++ [] ++ ',' :: (decimal (-4) ++ ([] ++ [])))
    loadInput { twoEdges with
        file := fun _ => some (['u'] ++ '\n' :: (first ++ '\n' :: '\n' :: second)), atof := fun _ => ofInt (-1) }
      (commandLine "tea_walk" "-1" threeWalks) = .ok (threeWalks, [⟨0, 1, 5⟩, ⟨2, 1, -4⟩]) := by
  intro first second
  have hhalf : Fraction ['.', '5'] := .digits (by simp)
  have hzero : Fraction ['.', '0'] := .digits (by simp)
  have hfirst : Renders ⟨0, 1, 5⟩ first := Renders.mk hhalf .none hzero (Or.inr rfl)
  have hsecond : Renders ⟨2, 1, -4⟩ second := Renders.mk .none .none .none (Or.inl rfl)
  exact loadInput_commandLine _ threeWalks "tea_walk" (by decide) rfl (by decide)
    (Rendering.edge hfirst (Rendering.blank (Rendering.last hsecond))) (by unfold Fits; decide) rfl

end Tea.Cli
