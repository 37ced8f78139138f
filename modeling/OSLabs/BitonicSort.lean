/-
# The bitonic sort

Translation of the functions of `Labs/Lab2/src/main.cpp` that compute the array, with
every recursive call made by the caller itself.  A `std::vector<int>` is an array of
integers; the indices and counts are never negative and never leave the array.
-/
import Mathlib

namespace BitonicSort

/-- `compareAndSwap`: the two elements are swapped if the comparison has the value `dir`. -/
def compareAndSwap (arr : Array ℤ) (i j : ℕ) (dir : ℤ) : Array ℤ :=
  if dir = (if arr[i]! > arr[j]! then 1 else 0) then arr.swapIfInBounds i j else arr

/-- The `for` loop of `bitonicMerge`, from `low` on, `count` times. -/
def compareHalves (arr : Array ℤ) (low k : ℕ) (dir : ℤ) (count : ℕ) : Array ℤ :=
  (List.range' low count).foldl (fun arr i => compareAndSwap arr i (i + k) dir) arr

/-- `bitonicMerge`. -/
def bitonicMerge (arr : Array ℤ) (low cnt : ℕ) (dir : ℤ) : Array ℤ :=
  if cnt > 1 then
    let k := cnt / 2
    let arr := compareHalves arr low k dir k
    let arr := bitonicMerge arr low k dir
    bitonicMerge arr (low + k) k dir
  else arr
termination_by cnt
decreasing_by all_goals omega

/-- `bitonicSort`. -/
def bitonicSort (arr : Array ℤ) (low cnt : ℕ) (dir : ℤ) : Array ℤ :=
  if cnt > 1 then
    let k := cnt / 2
    let arr := bitonicSort arr low k 1
    let arr := bitonicSort arr (low + k) k 0
    bitonicMerge arr low cnt dir
  else arr
termination_by cnt
decreasing_by all_goals omega

/-- The last line that `make_calculations` prints. -/
inductive Report where
  | sortingFailed
  | sortingSuccessful
  deriving DecidableEq, Repr

/-- The loop at the end of `make_calculations` finds no element below the one before it. -/
def checkSorted (arr : Array ℤ) (n : ℕ) : Report :=
  if (List.range' 1 (n - 1)).any fun i => decide (arr[i]! < arr[i - 1]!) then .sortingFailed
  else .sortingSuccessful

/-- The array that `make_calculations` fills from the results of `rand`. -/
def randomArray (n : ℕ) (rand : ℕ → ℤ) : Array ℤ :=
  ((List.range n).map fun i => (rand i).tmod 1000).toArray

/-- `make_calculations`: the array is filled, sorted and checked. -/
def makeCalculations (n : ℕ) (rand : ℕ → ℤ) : Report :=
  checkSorted (bitonicSort (randomArray n rand) 0 n 1) n

/-- The check of `main`: `(n & (n - 1)) == 0`. -/
def isPowerOfTwo (n : BitVec 32) : Bool := (n &&& (n - 1)) == 0

end BitonicSort
