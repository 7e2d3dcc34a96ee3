import Tea.Base.Types
import Tea.Lib.Strtoll
/-!
# The CSV reader

`readEdgesCsv` and `computeEdgeStats` of `csv_reader.hpp`. A file is the list of its bytes, a byte the character of its
code. A pointer into a line is what stands from there on in memory (`bytesOf`): the rest of the `std::string` that
`getline` fills, its terminating NUL, and whatever longer lines or other objects have left behind that, the `Memory`. The
step past the end pointer of a number is unconditional in the source, so the next number may be read from behind the NUL.
The run ends with `Fault.outOfBounds` only where it comes to the end of the memory.

`Logged` keeps the offsets of all characters that are read and of all pointers that are handed to `strtoll`.
-/

namespace Tea.Csv

open CString

/-- How reading ends without a list of edges. -/
inductive Fault
  /-- `throw std::runtime_error(what)`. -/
  | thrown (what : String)
  /-- `strtoll` reads from a pointer behind the end of the memory. -/
  | outOfBounds
deriving Repr, DecidableEq

/-! ### Computations on a line -/

/-- A computation on a line with the offsets it touches. -/
structure Logged (α : Type) where
  touched : List Nat
  result : Except Fault α

namespace Logged

variable {α β : Type}

instance : Monad Logged where
  pure a := ⟨[], .ok a⟩
  bind x f :=
    match x.result with
    | .ok a => ⟨x.touched ++ (f a).touched, (f a).result⟩
    | .error e => ⟨x.touched, .error e⟩

def throw (e : Fault) : Logged α := ⟨[], .error e⟩

def touch (offsets : List Nat) : Logged Unit := ⟨offsets, .ok ()⟩

theorem bind_of_ok {x : Logged α} {a : α} (f : α → Logged β) (h : x.result = .ok a) :
    x >>= f = ⟨x.touched ++ (f a).touched, (f a).result⟩ := by
  show (match x.result with
    | .ok a => (⟨x.touched ++ (f a).touched, (f a).result⟩ : Logged β)
    | .error e => ⟨x.touched, .error e⟩) = _
  rw [h]

theorem bind_of_error {x : Logged α} {e : Fault} (f : α → Logged β) (h : x.result = .error e) :
    x >>= f = ⟨x.touched, .error e⟩ := by
  show (match x.result with
    | .ok a => (⟨x.touched ++ (f a).touched, (f a).result⟩ : Logged β)
    | .error e => ⟨x.touched, .error e⟩) = _
  rw [h]

theorem result_bind_of_ok {x : Logged α} {a : α} (f : α → Logged β) (h : x.result = .ok a) :
    (x >>= f).result = (f a).result := by
  rw [bind_of_ok f h]

theorem result_bind_of_error {x : Logged α} {e : Fault} (f : α → Logged β) (h : x.result = .error e) :
    (x >>= f).result = .error e := by
  rw [bind_of_error f h]

theorem mem_touched_bind {x : Logged α} {f : α → Logged β} {o : Nat} : o ∈ (x >>= f).touched ↔
    o ∈ x.touched ∨ ∃ a, x.result = .ok a ∧ o ∈ (f a).touched := by
  cases h : x.result with
  | ok a =>
      rw [bind_of_ok f h, List.mem_append]
      simp
  | error e =>
      rw [bind_of_error f h]
      simp

end Logged

/-- The offset of a pointer from the start of the line; `line` is what stands in memory from there on. -/
def offsetOf (line p : List Char) : Nat := line.length - p.length

/-- The offsets of the first `k` characters behind a pointer. -/
def offsetsFrom (line p : List Char) (k : Nat) : List Nat := (List.range k).map (offsetOf line p + ·)

/-- `std::strtoll(p, &end, 10)`; the pointer `none` is the one behind the last NUL of the memory. -/
def callStrtoll (line : List Char) : (p : Option (List Char)) → Logged (Int × List Char)
  | none => do
      Logged.touch [line.length + 1]
      Logged.throw .outOfBounds
  | some p => do
      Logged.touch (offsetsFrom line p (strtollLooksAt p))
      return strtoll p

/-- `while (*end && *end != ',') ++end;` -/
def skipToComma (line endPtr : List Char) : Logged (List Char) := do
  let stop := endPtr.dropWhile fun c => c ≠ nul && c ≠ ','
  Logged.touch (offsetsFrom line endPtr (endPtr.length - stop.length + 1))
  return stop

/-- `end + 1`. -/
def next (endPtr : List Char) : Option (List Char) := endPtr.tail?

/-- Read an id and step over the separator after it; `name` is the field's name in the error. -/
def parseId (name : String) (lineno : Nat) (line : List Char) (p : Option (List Char)) :
    Logged (Int × Option (List Char)) := do
  let (n, endPtr) ← callStrtoll line p
  Logged.touch [offsetOf line endPtr]
  if some endPtr = p ∨ (deref endPtr ≠ ',' ∧ deref endPtr ≠ '.') then
    Logged.throw (.thrown ("bad " ++ name ++ " at line " ++ toString lineno))
  else
    let endPtr ← skipToComma line endPtr
    return (n, next endPtr)

/-- The body of the loop for a line that is not empty. -/
def parseLine (lineno : Nat) (line : List Char) : Logged Edge := do
  let (u, p) ← parseId "u" lineno line (some line)
  let (v, p) ← parseId "v" lineno line p
  let (t, endPtr) ← callStrtoll line p
  if some endPtr = p then
    Logged.throw (.thrown ("bad ts at line " ++ toString lineno))
  else
    return ⟨toInt32 u, toInt32 v, t⟩

/-! ### The file -/

/-- `std::getline`: the line and the rest of the file, `none` at its end. -/
def getline (content : List Char) : Option (List Char × List Char) :=
  if content = [] then none
  else some (content.takeWhile (· ≠ '\n'), (content.dropWhile (· ≠ '\n')).drop 1)

/-- The lines that successive calls of `getline` return. -/
def linesOf : (content : List Char) → List (List Char)
  | [] => []
  | c :: cs =>
      if c = '\n' then [] :: linesOf cs
      else
        match linesOf cs with
        | [] => [[c]]
        | line :: rest => (c :: line) :: rest

/-- For the line with a number, what stands in memory behind its terminating NUL, up to a last NUL. -/
abbrev Memory := (lineno : Nat) → List Char

/-- What stands in memory from the start of a line on. -/
def bytesOf (memory : Memory) (d : Nat × List Char) : List Char := d.2 ++ nul :: memory d.1

/-- The loop over the lines after line `lineno`. -/
def readRows (memory : Memory) : (lineno : Nat) → (lines : List (List Char)) → (out : List Edge) →
    Except Fault (List Edge)
  | _, [], out => return out
  | lineno, line :: lines, out =>
      if line = [] then readRows memory (lineno + 1) lines out
      else do
        let e ← (parseLine (lineno + 1) (bytesOf memory (lineno + 1, line))).result
        readRows memory (lineno + 1) lines (out ++ [e])

/-- `read_edges_csv`; a file that cannot be opened is `none`. -/
def readEdgesCsv (memory : Memory) (path : String) (file : Option (List Char)) : Except Fault (List Edge) :=
  match file with
  | none => throw (.thrown ("could not open: " ++ path))
  | some content =>
      match getline content with
      | none => throw (.thrown ("empty CSV: " ++ path))
      | some (_, rest) => readRows memory 1 (linesOf rest) []

/-- `EdgeStats`. -/
structure EdgeStats where
  maxNodeId : Int := -1
  minTs : Int := 0
  maxTs : Int := 0
deriving Repr, DecidableEq

/-- The body of the loop of `compute_edge_stats`. -/
def EdgeStats.add (s : EdgeStats) (e : Edge) : EdgeStats :=
  let maxNodeId := if e.u > s.maxNodeId then e.u else s.maxNodeId
  { maxNodeId := if e.v > maxNodeId then e.v else maxNodeId
    minTs := if e.t < s.minTs then e.t else s.minTs
    maxTs := if e.t > s.maxTs then e.t else s.maxTs }

/-- `compute_edge_stats`. -/
def computeEdgeStats : (edges : List Edge) → EdgeStats
  | [] => {}
  | e :: es => (e :: es).foldl EdgeStats.add { minTs := e.t, maxTs := e.t }

example : readEdgesCsv (fun _ => []) "f" (some "u,i,ts\n0.0,1.0,100.0\n\n42.0,99.0,1648811421.0\n".toList) =
    .ok [⟨0, 1, 100⟩, ⟨42, 99, 1648811421⟩] := by decide

-- the header has left `5,6` behind the NUL of the second line
example : readEdgesCsv (fun _ => "5,6".toList) "f" (some "h___,5,6\n1.00\n".toList) = .ok [⟨1, 5, 6⟩] := by decide

end Tea.Csv
