import Tea.Base.Arith
import Tea.Base.Types
import Tea.Lib.Check
import Tea.Lib.Strtoll
/-!
# The command line

`parseCliArgs` of `cli_args.hpp`. `argv` lists the program name and the arguments. A `CliArgs` is what the parser accepts:
its two counts are positive numbers of type `int`. `atof` stands for the function of the C library; `atoi` is the one of a
C library that converts to `long` and narrows.
-/

namespace Tea.Cli

open Arith CString Check

/-- The paper's biases, and the unbiased option. -/
inductive Picker
  | uniform
  | linear
  | exponential
  | temporalNode2vec
deriving Repr, DecidableEq

/-- The data structures of the paper. -/
inductive Variant
  | pat
  | hpat
deriving Repr, DecidableEq

/-- How the parser ends without arguments. -/
inductive Refusal
  /-- `std::exit(code)`, after the usage has been printed. -/
  | exit (code : Nat)
  /-- `throw std::runtime_error(what)`. -/
  | thrown (what : String)
deriving Repr, DecidableEq

/-- `parse_picker`. -/
def parsePicker (s : String) : Except Refusal Picker :=
  if s = "uniform" then .ok .uniform
  else if s = "linear" then .ok .linear
  else if s = "exponential" then .ok .exponential
  else if s = "temporal_node2vec" then .ok .temporalNode2vec
  else .error (.thrown ("Invalid picker '" ++ s ++
    "' — expected one of: uniform, linear, exponential, temporal_node2vec"))

/-- `picker_to_str`. -/
def pickerToStr : Picker → String
  | .uniform => "uniform"
  | .linear => "linear"
  | .exponential => "exponential"
  | .temporalNode2vec => "temporal_node2vec"

/-- `parse_variant`. -/
def parseVariant (s : String) : Except Refusal Variant :=
  if s = "tea_pat" then .ok .pat
  else if s = "tea_hpat" then .ok .hpat
  else .error (.thrown ("Invalid kernel_launch_type '" ++ s ++ "' — expected one of: tea_pat, tea_hpat"))

/-- `variant_to_str`. -/
def variantToStr : Variant → String
  | .pat => "tea_pat"
  | .hpat => "tea_hpat"

@[simp] theorem parsePicker_pickerToStr (p : Picker) : parsePicker (pickerToStr p) = .ok p := by
  cases p <;> rfl

@[simp] theorem parseVariant_variantToStr (v : Variant) : parseVariant (variantToStr v) = .ok v := by
  cases v <;> rfl

/-- `CliArgs`, accepted. -/
structure CliArgs (R : Type) where
  filePath : String
  picker : Picker
  variant : Variant
  isDirected : Bool
  numWalksPerNode : Int
  maxWalkLen : Int
  timescaleBound : R
  numWalksPerNode_pos : 0 < numWalksPerNode
  numWalksPerNode_fits : IsInt32 numWalksPerNode
  maxWalkLen_pos : 0 < maxWalkLen
  maxWalkLen_fits : IsInt32 maxWalkLen

/-- `std::atoi`. -/
def atoi (s : String) : Int := toInt32 (strtoll s.toList).1

section parse

variable {R : Type} [Arith R]

/-- `try_int`. -/
def tryInt (argv : List String) (idx : Nat) (dflt : Int) : Int := (argv[idx]?.map atoi).getD dflt

theorem tryInt_isInt32 (argv : List String) (idx : Nat) {dflt : Int} (h : IsInt32 dflt) :
    IsInt32 (tryInt argv idx dflt) := by
  unfold tryInt
  cases argv[idx]? with
  | none => exact h
  | some s => exact toInt32_isInt32 _

/-- `try_double`. -/
def tryDouble (atof : String → R) (argv : List String) (idx : Nat) (dflt : R) : R := (argv[idx]?.map atof).getD dflt

/-- `try_str`. -/
def tryStr (argv : List String) (idx : Nat) (dflt : String) : String := argv[idx]?.getD dflt

/-- `parse_cli_args`. -/
def parseCliArgs (atof : String → R) (argv : List String) : Except Refusal (CliArgs R) :=
  if argv.length < 2 then .error (.exit 1)
  else
    let a1 := tryStr argv 1 ""
    if a1 = "--help" ∨ a1 = "-h" then .error (.exit 0)
    else do
      let picker ← parsePicker (tryStr argv 2 "exponential")
      let variant ← parseVariant (tryStr argv 3 "tea_hpat")
      let isDirected := tryInt argv 4 1 != 0
      let numWalksPerNode := tryInt argv 5 20
      let maxWalkLen := tryInt argv 6 80
      let timescaleBound := tryDouble atof argv 7 (ofInt (-1))
      if hnodes : numWalksPerNode ≤ 0 then .error (.thrown "num_walks_per_node must be > 0")
      else if hlen : maxWalkLen ≤ 0 then .error (.thrown "max_walk_len must be > 0")
      else
        .ok
          { filePath := a1
            picker := picker
            variant := variant
            isDirected := isDirected
            numWalksPerNode := numWalksPerNode
            maxWalkLen := maxWalkLen
            timescaleBound := timescaleBound
            numWalksPerNode_pos := by omega
            numWalksPerNode_fits := tryInt_isInt32 argv 5 (by decide)
            maxWalkLen_pos := by omega
            maxWalkLen_fits := tryInt_isInt32 argv 6 (by decide) }

end parse

/-! ### What is accepted -/

section accepted

variable {R : Type} [Arith R] (atof : String → R) (argv : List String)

/-- The command lines that the parser accepts. -/
structure Accepted : Prop where
  file : ¬ argv.length < 2
  no_help : ¬ (tryStr argv 1 "" = "--help" ∨ tryStr argv 1 "" = "-h")
  picker : ∃ p, tryStr argv 2 "exponential" = pickerToStr p
  variant : ∃ v, tryStr argv 3 "tea_hpat" = variantToStr v
  nodes : ¬ tryInt argv 5 20 ≤ 0
  len : ¬ tryInt argv 6 80 ≤ 0

/-- The arguments are the ones on the command line, and where it ends the defaults. -/
structure CliArgs.Of (args : CliArgs R) : Prop where
  filePath : args.filePath = tryStr argv 1 ""
  picker : tryStr argv 2 "exponential" = pickerToStr args.picker
  variant : tryStr argv 3 "tea_hpat" = variantToStr args.variant
  isDirected : args.isDirected = (tryInt argv 4 1 != 0)
  numWalksPerNode : args.numWalksPerNode = tryInt argv 5 20
  maxWalkLen : args.maxWalkLen = tryInt argv 6 80
  timescaleBound : args.timescaleBound = tryDouble atof argv 7 (ofInt (-1))

theorem parsePicker_decides (s : String) :
    Decides (parsePicker s) (∃ p, s = pickerToStr p) fun p => s = pickerToStr p := by
  constructor
  · rintro ⟨p, rfl⟩
    exact ⟨p, parsePicker_pickerToStr p, rfl⟩
  · intro p h
    unfold parsePicker at h
    split_ifs at h with h₁ h₂ h₃ h₄
    · exact ⟨.uniform, h₁⟩
    · exact ⟨.linear, h₂⟩
    · exact ⟨.exponential, h₃⟩
    · exact ⟨.temporalNode2vec, h₄⟩

theorem parseVariant_decides (s : String) :
    Decides (parseVariant s) (∃ v, s = variantToStr v) fun v => s = variantToStr v := by
  constructor
  · rintro ⟨v, rfl⟩
    exact ⟨v, parseVariant_variantToStr v, rfl⟩
  · intro v h
    unfold parseVariant at h
    split_ifs at h with h₁ h₂
    · exact ⟨.pat, h₁⟩
    · exact ⟨.hpat, h₂⟩

/-- **What the parser accepts, and what it returns.** -/
theorem parseCliArgs_decides : Decides (parseCliArgs atof argv) (Accepted argv) (CliArgs.Of atof argv) := by
  have h := Decides.guard (e := Refusal.exit 1) fun _ : ¬ argv.length < 2 =>
    Decides.guard (e := Refusal.exit 0) fun _ : ¬ (tryStr argv 1 "" = "--help" ∨ tryStr argv 1 "" = "-h") =>
      (parsePicker_decides (tryStr argv 2 "exponential")).bind fun picker hpicker =>
        (parseVariant_decides (tryStr argv 3 "tea_hpat")).bind fun variant hvariant =>
          Decides.guardDep (e := Refusal.thrown "num_walks_per_node must be > 0") fun hnodes : ¬ tryInt argv 5 20 ≤ 0 =>
            Decides.guardDep (e := Refusal.thrown "max_walk_len must be > 0") fun hlen : ¬ tryInt argv 6 80 ≤ 0 =>
              Decides.ok (Q := CliArgs.Of atof argv) (a := ⟨tryStr argv 1 "", picker, variant, tryInt argv 4 1 != 0,
                tryInt argv 5 20, tryInt argv 6 80, tryDouble atof argv 7 (ofInt (-1)), by omega,
                tryInt_isInt32 argv 5 (by decide), by omega, tryInt_isInt32 argv 6 (by decide)⟩)
                ⟨rfl, hpicker, hvariant, rfl, rfl, rfl, rfl⟩
  apply h.iff
  constructor
  · rintro ⟨hfile, hhelp, hpicker, hvariant, hnodes, hlen, -⟩
    exact ⟨hfile, hhelp, hpicker, hvariant, hnodes, hlen⟩
  · rintro ⟨hfile, hhelp, hpicker, hvariant, hnodes, hlen⟩
    exact ⟨hfile, hhelp, hpicker, hvariant, hnodes, hlen, trivial⟩

theorem accepted_defaults (prog file : String) (h : ¬ (file = "--help" ∨ file = "-h")) : Accepted [prog, file] :=
  ⟨by simp, h, ⟨.exponential, rfl⟩, ⟨.hpat, rfl⟩, by simp [tryInt], by simp [tryInt]⟩

end accepted

end Tea.Cli
