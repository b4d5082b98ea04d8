import Zycord.Core.Block

/-!
# The difficulty rule and the time bounds

The functions of package `core/pow` that judge a header by the headers before it: the target of
the next block, a linearly weighted moving average over a window, and the median that its time
has to exceed. Neither evaluates a hash. Where the source panics, on a slice outside of its bounds
or a division by zero, the result is `none`.
-/

namespace Zycord.Pow

/-- Go's `xs[i:]`, which panics outside the bounds. -/
def sliceFrom {α : Type} (xs : List α) (i : ℤ) : Option (List α) :=
  if 0 ≤ i ∧ i ≤ xs.length then some (xs.drop i.toNat) else none

/-! ## The target of the next block -/

/-- The clamped time between two blocks, signed. -/
def solveTime (maxSolve previous time : UInt64) : Int64 :=
  let clamp := fun d : UInt64 => if d > maxSolve then maxSolve else d
  if time ≥ previous then (clamp (time - previous)).toInt64
  else -(clamp (previous - time)).toInt64

/-- Add up the solve times behind a header, each weighted by its position, and the weights. -/
def weighSolves (maxSolve : UInt64) : (i previous : UInt64) → List Header → Int64 × UInt64 →
    Int64 × UInt64
  | _, _, [], acc => acc
  | i, previous, h :: rest, (weighted, weights) =>
    weighSolves maxSolve (i + 1) h.time rest
      (weighted + solveTime maxSolve previous h.time * i.toInt64, weights + i)

/-- The weighted solve times of a window and the sum of their weights. -/
def weighWindow (maxSolve : UInt64) : List Header → Int64 × UInt64
  | [] => (0, 0)
  | h :: rest => weighSolves maxSolve 1 h.time rest (0, 0)

/-- The mean of the declared targets of a window. Each target is divided first and the remainders
are carried. -/
def meanTarget (window : List Header) : U256 :=
  let count := UInt64.ofNat window.length
  let (mean, remainders) := window.foldl
    (fun (acc : U256 × UInt64) h =>
      (acc.1.satAdd (h.target.div64 count).1, acc.2 + (h.target.div64 count).2)) (0, 0)
  mean.satAdd (.fromUint64 (remainders / count))

/-- Bring a target into the relative bounds around the last one and the absolute bounds. -/
def clampTarget (p : Params) (last next : U256) : U256 :=
  let upper := last.mulDiv64 p.difficultyClampFactor 1
  let lower := (last.div64 p.difficultyClampFactor).1
  let next := if next > upper then upper else next
  let next := if next < lower then lower else next
  let next := if next > p.maxTarget then p.maxTarget else next
  if next.isZero then 1 else next

/-- The target of the block behind a window of at least two headers. -/
def windowTarget (p : Params) (window : List Header) : Option U256 := do
  let goal := p.targetBlockSeconds
  let (weighted, weights) := weighWindow (goal * p.difficultyClampFactor) window
  let last ← window.getLast?
  if weights = 0 then return last.target
  let avgDenominator := weights * goal
  let avgNumerator := if weighted ≤ 0 then 1 else weighted.toUInt64
  guard (avgDenominator ≠ 0 ∧ p.difficultyClampFactor ≠ 0)
  return clampTarget p last.target ((meanTarget window).mulDiv64 avgNumerator avgDenominator)

/-- The difficulty target for the block after the given headers, oldest first. -/
def nextTarget (recent : List Header) (p : Params) : Option U256 := do
  let n := p.difficultyWindow.toInt64
  if recent.length < 2 then return p.genesisTarget
  let width : ℤ := if (recent.length : ℤ) < (n + 1).toInt then recent.length else (n + 1).toInt
  let window ← sliceFrom recent (recent.length - width)
  windowTarget p window

/-! ## Time -/

/-- The median timestamp of the most recent headers. -/
def medianTime (recent : List Header) (p : Params) : Option UInt64 := do
  let n : ℤ := if (recent.length : ℤ) < p.medianTimeBlocks.toInt then recent.length
    else p.medianTimeBlocks.toInt
  let window ← sliceFrom recent (recent.length - n)
  let times := (window.map Header.time).mergeSort fun a b => decide (a ≤ b)
  times[times.length / 2]?

/-- Whether a header is later than the median. -/
def checkMedianTime (h : Header) (recent : List Header) (p : Params) : Option Bool :=
  if h.height = 0 ∨ recent.length = 0 then some true
  else (medianTime recent p).map fun got => !decide (h.time ≤ got)

end Zycord.Pow
