import Mathlib.Algebra.Ring.Int.Defs
import CambriconGst.Easytrack.Hungarian
import CambriconGst.Lib.ByteArrays

/-!
# The workspace of the Hungarian algorithm

`easytrack/hungarian.cpp` as it works on the bytes of its workspace, and the thread's workspace of
`easytrack/match.h`. Loops read and write the arrays at `row + nOfRows * col`; a pointer reaches
whatever lies there, also behind its array.

Floats are any type with the operations the algorithm uses, so nothing is said of how they round.
-/

namespace CambriconGst.Hungarian

open Lib

/-- The operations on `float`. `isZero` is `fabs(x) < DBL_EPSILON`. -/
structure FloatOps (K : Type) where
  zero : K
  add : K → K → K
  sub : K → K → K
  lt : K → K → Bool
  isZero : K → Bool

/-- Exact arithmetic. -/
def FloatOps.exact {K : Type} [AddCommGroup K] [LinearOrder K] : FloatOps K where
  zero := 0
  add := (· + ·)
  sub := (· - ·)
  lt x y := x < y
  isZero x := x = 0

/-- How values lie in memory; a byte 0 is `false`. -/
structure ByteFormat (K B : Type) where
  float : Codec K B 4
  int : Codec (BitVec 32) B 4
  bool : Codec Bool B 1
  zero : B
  bool_zero : bool.decode (fun _ => zero) = false

def getWorkspaceSize (rows cols : Nat) : Nat :=
  cols * rows * 11 + rows * 5 + cols

namespace Buffer

variable {K B : Type} {R C : Nat}

/-! ## The sub-arrays -/

section Arrays

variable (F : ByteFormat K B) (R C : Nat)

def distMatrixIn : Pointer K B 4 where
  base := 0
  codec := F.float

def assignment : Pointer (BitVec 32) B 4 where
  base := (distMatrixIn F).after (R * C)
  codec := F.int

def distMatrix : Pointer K B 4 where
  base := (assignment F R C).after R
  codec := F.float

def starMatrix : Pointer Bool B 1 where
  base := (distMatrix F R C).after (R * C)
  codec := F.bool

def primeMatrix : Pointer Bool B 1 where
  base := (starMatrix F R C).after (R * C)
  codec := F.bool

def newStarMatrix : Pointer Bool B 1 where
  base := (primeMatrix F R C).after (R * C)
  codec := F.bool

def coveredColumns : Pointer Bool B 1 where
  base := (newStarMatrix F R C).after (R * C)
  codec := F.bool

def coveredRows : Pointer Bool B 1 where
  base := (coveredColumns F R C).after C
  codec := F.bool

end Arrays

inductive SubArray where
  | distMatrixIn
  | assignment
  | distMatrix
  | starMatrix
  | primeMatrix
  | newStarMatrix
  | coveredColumns
  | coveredRows
deriving DecidableEq, Repr

/-- The address a sub-array starts at. -/
def SubArray.start (F : ByteFormat K B) (R C : Nat) : SubArray → Nat
  | distMatrixIn => (Buffer.distMatrixIn F).base
  | assignment => (Buffer.assignment F R C).base
  | distMatrix => (Buffer.distMatrix F R C).base
  | starMatrix => (Buffer.starMatrix F R C).base
  | primeMatrix => (Buffer.primeMatrix F R C).base
  | newStarMatrix => (Buffer.newStarMatrix F R C).base
  | coveredColumns => (Buffer.coveredColumns F R C).base
  | coveredRows => (Buffer.coveredRows F R C).base

/-- The address behind its last element. -/
def SubArray.stop (F : ByteFormat K B) (R C : Nat) : SubArray → Nat
  | distMatrixIn => (Buffer.distMatrixIn F).after (R * C)
  | assignment => (Buffer.assignment F R C).after R
  | distMatrix => (Buffer.distMatrix F R C).after (R * C)
  | starMatrix => (Buffer.starMatrix F R C).after (R * C)
  | primeMatrix => (Buffer.primeMatrix F R C).after (R * C)
  | newStarMatrix => (Buffer.newStarMatrix F R C).after (R * C)
  | coveredColumns => (Buffer.coveredColumns F R C).after C
  | coveredRows => (Buffer.coveredRows F R C).after R

/-! ## Preliminary steps -/

section Steps

variable (A : FloatOps K) (F : ByteFormat K B)

/-- The smallest element of a row. Comparing the first with itself changes nothing. -/
def rowMin (m : Memory B) (row : Fin R) : K :=
  (List.finRange C).foldl (fun minValue (col : Fin C) =>
    let value := (distMatrix F R C).get m (row + R * col)
    if A.lt value minValue then value else minValue) ((distMatrix F R C).get m row)

/-- Subtract the smallest element from each element of the row. -/
def subtractRowMin (m : Memory B) (row : Fin R) : Memory B :=
  let minValue := rowMin (C := C) A F m row
  (List.finRange C).foldl (fun m (col : Fin C) =>
    let d := distMatrix F R C
    d.set m (row + R * col) (A.sub (d.get m (row + R * col)) minValue)) m

def colMin (m : Memory B) (col : Fin C) : K :=
  (List.finRange R).foldl (fun minValue (row : Fin R) =>
    let value := (distMatrix F R C).get m (row + R * col)
    if A.lt value minValue then value else minValue) ((distMatrix F R C).get m (R * col))

def subtractColMin (m : Memory B) (col : Fin C) : Memory B :=
  let minValue := colMin (R := R) A F m col
  (List.finRange R).foldl (fun m (row : Fin R) =>
    let d := distMatrix F R C
    d.set m (row + R * col) (A.sub (d.get m (row + R * col)) minValue)) m

/-- Steps 1 and 2a by rows. -/
def starRow (m : Memory B) (row : Fin R) : Memory B :=
  match (List.finRange C).find? fun col : Fin C =>
      A.isZero ((distMatrix F R C).get m (row + R * col)) && !(coveredColumns F R C).get m col with
  | some col =>
    (coveredColumns F R C).set ((starMatrix F R C).set m (row + R * col) true) col true
  | none => m

/-- Steps 1 and 2a by columns. -/
def starCol (m : Memory B) (col : Fin C) : Memory B :=
  match (List.finRange R).find? fun row : Fin R =>
      A.isZero ((distMatrix F R C).get m (row + R * col)) && !(coveredRows F R C).get m row with
  | some row =>
    let m := (coveredColumns F R C).set ((starMatrix F R C).set m (row + R * col) true) col true
    (coveredRows F R C).set m row true
  | none => m

/-- `coveredRows[n] = false` for each row. -/
def uncoverRows (C : Nat) (m : Memory B) : Memory B :=
  (List.finRange R).foldl (fun m (row : Fin R) => (coveredRows F R C).set m row false) m

/-- The preliminary steps of `assignmentoptimal`. -/
def preliminary (R C : Nat) (m : Memory B) : Memory B :=
  if R ≤ C then
    (List.finRange R).foldl (starRow (C := C) A F)
      ((List.finRange R).foldl (subtractRowMin (C := C) A F) m)
  else
    uncoverRows (R := R) F C ((List.finRange C).foldl (starCol (R := R) A F)
      ((List.finRange C).foldl (subtractColMin (R := R) A F) m))

/-! ## The steps -/

def buildassignmentvector (R C : Nat) (m : Memory B) : Memory B :=
  (List.finRange R).foldl (fun m (row : Fin R) =>
    match (List.finRange C).find? fun col : Fin C => (starMatrix F R C).get m (row + R * col) with
    | some col => (assignment F R C).set m row (BitVec.ofNat 32 col)
    | none => m) m

def step2a (R C : Nat) (m : Memory B) : Memory B :=
  (List.finRange C).foldl (fun m (col : Fin C) =>
    if (List.finRange R).any fun row : Fin R => (starMatrix F R C).get m (row + R * col) then
      (coveredColumns F R C).set m col true
    else m) m

/-- What a scan of step 3 ends in. -/
inductive Scan (R C : Nat) (B : Type) where
  | augment (m : Memory B) (row : Fin R) (col : Fin C)
  | finished (m : Memory B) (zerosFound : Bool)

/-- One pass of the `while` loop of `step3` over the columns. -/
def scanColumns : List (Fin C) → Bool → Memory B → Scan R C B
  | [], zerosFound, m => .finished m zerosFound
  | col :: cols, zerosFound, m =>
    if (coveredColumns F R C).get m col then scanColumns cols zerosFound m
    else
      match (List.finRange R).find? fun row : Fin R => !(coveredRows F R C).get m row &&
          A.isZero ((distMatrix F R C).get m (row + R * col)) with
      | none => scanColumns cols zerosFound m
      | some row =>
        let m := (primeMatrix F R C).set m (row + R * col) true
        match (List.finRange C).find? fun starCol : Fin C =>
            (starMatrix F R C).get m (row + R * starCol) with
        | none => .augment m row col
        | some starCol =>
          scanColumns cols true
            ((coveredColumns F R C).set ((coveredRows F R C).set m row true) starCol false)

/--
The `while` loop of `step4`, with the column just given a star. It is `nOfColumns` when a row has
no primed zero; the indices are then behind the matrices.
-/
def flipPath (R C : Nat) : Nat → Memory B → Nat → Option (Memory B)
  | 0, _, _ => none
  | fuel + 1, m, starCol =>
    match (List.finRange R).find? fun starRow : Fin R =>
        (starMatrix F R C).get m (starRow + R * starCol) with
    | none => some m
    | some starRow =>
      let m := (newStarMatrix F R C).set m (starRow + R * starCol) false
      let primeCol := ((List.finRange C).find? fun primeCol : Fin C =>
        (primeMatrix F R C).get m (starRow + R * primeCol)).elim C Fin.val
      flipPath R C fuel ((newStarMatrix F R C).set m (starRow + R * primeCol) true) primeCol

/-- Generate temporary copy of `starMatrix`. -/
def copyStars (R C : Nat) (m : Memory B) : Memory B :=
  (List.finRange (R * C)).foldl (fun m (n : Fin (R * C)) =>
    (newStarMatrix F R C).set m n ((starMatrix F R C).get m n)) m

/-- Use temporary copy as new `starMatrix`, delete all primes. -/
def useNewStars (R C : Nat) (m : Memory B) : Memory B :=
  (List.finRange (R * C)).foldl (fun m (n : Fin (R * C)) =>
    let m := (primeMatrix F R C).set m n false
    (starMatrix F R C).set m n ((newStarMatrix F R C).get m n)) m

/-- `step4`, with at most `fuel` turns of its `while` loop. -/
def step4 (fuel : Nat) (m : Memory B) (row : Fin R) (col : Fin C) : Option (Memory B) :=
  let m := (newStarMatrix F R C).set (copyStars F R C m) (row + R * col) true
  (flipPath F R C fuel m col).map fun m => uncoverRows (R := R) F C (useNewStars F R C m)

variable (dblMax : (Fin R → Fin C → K) → K)

/-- The smallest uncovered element. -/
def smallestUncovered (m : Memory B) : K :=
  (List.finRange R).foldl (fun h (row : Fin R) =>
    if (coveredRows F R C).get m row then h
    else (List.finRange C).foldl (fun h (col : Fin C) =>
      if (coveredColumns F R C).get m col then h
      else
        let value := (distMatrix F R C).get m (row + R * col)
        if A.lt value h then value else h) h)
    (dblMax fun row col => (distMatrix F R C).get m (row + R * col))

/-- Add `h` to each covered row. -/
def addToRows (R C : Nat) (h : K) (m : Memory B) : Memory B :=
  (List.finRange R).foldl (fun m (row : Fin R) =>
    if (coveredRows F R C).get m row then
      (List.finRange C).foldl (fun m (col : Fin C) =>
        let d := distMatrix F R C
        d.set m (row + R * col) (A.add (d.get m (row + R * col)) h)) m
    else m) m

/-- Subtract `h` from each uncovered column. -/
def subtractFromColumns (R C : Nat) (h : K) (m : Memory B) : Memory B :=
  (List.finRange C).foldl (fun m (col : Fin C) =>
    if (coveredColumns F R C).get m col then m
    else
      (List.finRange R).foldl (fun m (row : Fin R) =>
        let d := distMatrix F R C
        d.set m (row + R * col) (A.sub (d.get m (row + R * col)) h)) m) m

def step5 (m : Memory B) : Memory B :=
  let h := smallestUncovered A F dblMax m
  subtractFromColumns A F R C h (addToRows A F R C h m)

/-- One call, up to the call it makes in tail position. -/
def call (fuel : Nat) : Call R C × Memory B → Outcome (Call R C × Memory B) (Memory B)
  | (.step2a, m) => .next (.step2b, step2a F R C m)
  | (.step2b, m) =>
    if (List.finRange C).countP (fun col : Fin C => (coveredColumns F R C).get m col) =
        minDim R C then
      .halt (buildassignmentvector F R C m)
    else .next (.step3, m)
  | (.step3, m) =>
    match scanColumns A F (List.finRange C) false m with
    | .augment m row col => .next (.step4 row col, m)
    | .finished m true => .next (.step3, m)
    | .finished m false => .next (.step5, m)
  | (.step4 row col, m) =>
    match step4 F fuel m row col with
    | some m => .next (.step2a, m)
    | none => .stuck
  | (.step5, m) => .next (.step3, step5 A F dblMax m)

/-! ## The wrapper -/

def computeassignmentcost (R C : Nat) (m : Memory B) : K :=
  (List.finRange R).foldl (fun cost (row : Fin R) =>
    let col := ((assignment F R C).get m row).toInt
    if col ≥ 0 then A.add cost ((distMatrixIn F).get m (row + R * col.toNat)) else cost) A.zero

/-- An `unsigned int` as an `int`. -/
def asInt (x : Nat) : Int :=
  if x < 2 ^ 31 then x else x - 2 ^ 32

/-- The result of an operation on `int`; none when it overflows. -/
def checkedInt (x : Int) : Option Int :=
  if -2 ^ 31 ≤ x ∧ x < 2 ^ 31 then some x else none

/-- An `int` as a `size_t`. -/
def sizeT (x : Int) : Nat :=
  (x % 2 ^ 64).toNat

/-- The lengths of the `mempcpy` and the `memset` of `assignmentoptimal`, as it computes them. -/
def lengths (R C : Nat) : Option (Nat × Nat) := do
  let nOfRows := asInt R
  let nOfColumns := asInt C
  let nOfElements ← checkedInt (nOfRows * nOfColumns)
  let matrices ← checkedInt (nOfElements * 3)
  let columns ← checkedInt (matrices + nOfColumns)
  let cleared ← checkedInt (columns + nOfRows)
  return (sizeT nOfElements * 4 % 2 ^ 64, sizeT cleared)

/-- Fill in the `distMatrixIn`. -/
def fillIn (DistMatrix : Fin R → Fin C → K) (m : Memory B) : Memory B :=
  (List.finRange R).foldl (fun m (i : Fin R) =>
    (List.finRange C).foldl (fun m (j : Fin C) =>
      (distMatrixIn F).set m (i + R * j) (DistMatrix i j)) m) m

/-- What `Solve` and `assignmentoptimal` write before the preliminary steps. -/
def initBuffer (copied cleared : Nat) (DistMatrix : Fin R → Fin C → K) (m : Memory B) :
    Memory B :=
  let m := fillIn F DistMatrix m
  let m := (List.finRange R).foldl (fun m (row : Fin R) => (assignment F R C).set m row (-1)) m
  let m := copy (distMatrix F R C).base (distMatrixIn F).base copied m
  fill (starMatrix F R C).base cleared F.zero m

/-- How a call of `Solve` ends. -/
inductive Solved (ρ : Type) where
  /-- An overflow, or a block of bytes that is not in the workspace. -/
  | undefined
  | unfinished
  | returned (r : ρ)
deriving DecidableEq, Repr

def Solved.map {ρ ρ' : Type} (f : ρ → ρ') : Solved ρ → Solved ρ'
  | undefined => undefined
  | unfinished => unfinished
  | returned r => returned (f r)

/-- What `Solve` returns, once `assignmentoptimal` is at its end. -/
def results (R C : Nat) (m : Memory B) : List Int × K :=
  ((List.finRange R).map fun r : Fin R => ((assignment F R C).get m r).toInt,
    computeassignmentcost A F R C m)

/-- `Solve`, run for at most `fuel` calls: the assignment vector, its cost, and the workspace. -/
def solve (fuel : Nat) (DistMatrix : Fin R → Fin C → K) (m : Memory B) :
    Solved ((List Int × K) × Memory B) :=
  match lengths R C with
  | none => .undefined
  | some (copied, cleared) =>
    if (distMatrix F R C).base + copied ≤ getWorkspaceSize R C ∧
        (starMatrix F R C).base + cleared ≤ getWorkspaceSize R C then
      match runMachine (call A F dblMax fuel) fuel
          (.step2b, preliminary A F R C (initBuffer F copied cleared DistMatrix m)) with
      | none => .unfinished
      | some m => .returned (results A F R C m, m)
    else .undefined

end Steps

end Buffer

/-! ## The workspace of a thread -/

/-- What `malloc` returned, and how much it was asked for. -/
structure Block (B : Type) where
  size : Nat
  memory : Memory B

structure HungarianWorkspace (B : Type) where
  ptr : Option (Block B)
  len : Nat

namespace HungarianWorkspace

variable {K B : Type} {R C : Nat}

def create : HungarianWorkspace B where
  ptr := none
  len := 0

/-- `Refresh`, with what `malloc` returns; false when it throws `std::bad_alloc`. -/
def refresh (w : HungarianWorkspace B) (newLen : Nat) (malloc : Option (Memory B)) :
    Bool × HungarianWorkspace B :=
  if newLen = 0 then (true, w)
  else if w.len < newLen then
    match malloc with
    | none => (false, { ptr := none, len := 0 })
    | some m => (true, { ptr := some { size := newLen, memory := m }, len := newLen })
  else (true, w)

/-- The block `Solve` works on: the thread's, or one of its own when it is given none. -/
def buffer (w : HungarianWorkspace B) (size : Nat) (own : Memory B) : Block B :=
  w.ptr.getD { size := size, memory := own }

/--
`HungarianMatch`, with what the two calls of `malloc` return: the workspace after it, and what
`Solve` returns; none when `std::bad_alloc` is thrown.
-/
def hungarianMatch (A : FloatOps K) (F : ByteFormat K B) (dblMax : (Fin R → Fin C → K) → K)
    (fuel : Nat) (w : HungarianWorkspace B) (costMatrix : Fin R → Fin C → K)
    (malloc : Option (Memory B)) (own : Memory B) :
    HungarianWorkspace B × Option (Buffer.Solved (List Int × K)) :=
  match w.refresh (getWorkspaceSize R C) malloc with
  | (false, w) => (w, none)
  | (true, w) =>
    let block := w.buffer (getWorkspaceSize R C) own
    let r := Buffer.solve A F dblMax fuel costMatrix block.memory
    match r with
    | .returned (_, m) =>
      ({ w with ptr := w.ptr.map fun block => { block with memory := m } },
        some (r.map Prod.fst))
    | _ => (w, some (r.map Prod.fst))

end HungarianWorkspace

end CambriconGst.Hungarian
