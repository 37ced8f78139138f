/-
# The usage-factor tests

Translation of `Labs/CP/src/usage_factor.cpp`, whose tests are templates over the allocator.  What
the random generators yield is an argument; the calls of the allocator are logged.  A call that
never returns makes the whole test `none`.
-/
import OSLabs.ClientLog

namespace UsageFactor

variable {σ : Type}

/-- `total_allocated`. -/
abbrev totalAllocated : ℕ := 16 * 4096

/-- The number of values of a `size_t`. -/
abbrev wordSize : ℕ := 2 ^ 64

/-! ## Random draws -/

/-- A value of the distribution `(8, 1024)`. -/
structure RandomSize where
  val : ℕ
  low : 8 ≤ val
  high : val ≤ 1024

/-- A value of the distribution `(3, 10)`. -/
structure RandomPower where
  val : ℕ
  low : 3 ≤ val
  high : val ≤ 10

/-- What the generators yield in one operation: whether `prob_dis(gen) < free_probability`, an index
below the number of active allocations, and a size. -/
structure Draws where
  belowProbability : Bool
  index : ℕ → ℕ
  size : RandomSize
  index_lt : ∀ n, 0 < n → index n < n

/-! ## The test with deallocations -/

/-- The variables of `test_random_with_deallocations` and the calls so far. -/
structure Progress (σ : Type) where
  allocator : σ
  activeAllocations : List Allocation
  currentUsed : ℕ
  maxUsed : ℕ
  log : CallLog

/-- `v[index] = v.back(); v.pop_back();`. -/
def swapRemove (v : List Allocation) (index : ℕ) : List Allocation :=
  (v.set index (v.getLastD ⟨0, 0⟩)).dropLast

/-- An iteration of the main loop of `test_random_with_deallocations`. -/
def operation (A : Allocator σ) (t : Progress σ) (d : Draws) : Option (Progress σ) :=
  let shouldFree := !t.activeAllocations.isEmpty && d.belowProbability
  if shouldFree then do
    -- `active_allocations[index]` stays what it was until the entry is removed below.
    let index := d.index t.activeAllocations.length
    let a := t.activeAllocations.getD index ⟨0, 0⟩
    let currentUsed := (t.currentUsed + wordSize - a.size) % wordSize
    let allocator ← A.free t.allocator a.ptr
    some { t with
      allocator := allocator
      activeAllocations := swapRemove t.activeAllocations index
      currentUsed := currentUsed
      log := t.log ++ [(.free a.ptr, none)] }
  else do
    let size := d.size.val
    let (ptr, allocator) ← A.alloc t.allocator size
    let log := t.log ++ [(.alloc size, some ptr)]
    -- a request that fails counts as an operation too
    if ptr ≠ 0 then
      let currentUsed := (t.currentUsed + size) % wordSize
      some {
        allocator := allocator
        activeAllocations := t.activeAllocations ++ [⟨ptr, size⟩]
        currentUsed := currentUsed
        maxUsed := max t.maxUsed currentUsed
        log := log }
    else some { t with allocator := allocator, log := log }

/-- The main loop, with `num_operations` the number of draws. -/
def operations (A : Allocator σ) (draws : List Draws) (allocator : σ) : Option (Progress σ) :=
  draws.foldlM (operation A) ⟨allocator, [], 0, 0, []⟩

/-- The loop that frees what is left. -/
def releaseAll (A : Allocator σ) : List Allocation → σ → CallLog → Option (σ × CallLog)
  | [], allocator, log => some (allocator, log)
  | a :: rest, allocator, log => do
    let allocator ← A.free allocator a.ptr
    releaseAll A rest allocator (log ++ [(.free a.ptr, none)])

/-- The end of a test: the numerator of the figure it returns, and its calls. -/
structure Result (σ : Type) where
  allocator : σ
  used : ℕ
  log : CallLog

/-- The returned figure, in percent.  The quotient and the product are exact as `double`. -/
def Result.usageFactor (r : Result σ) : ℚ := r.used / totalAllocated * 100

/-- `test_random_with_deallocations`. -/
def testRandomWithDeallocations (A : Allocator σ) (allocator : σ) (draws : List Draws) :
    Option (Result σ) := do
  let t ← operations A draws allocator
  let (allocator, log) ← releaseAll A t.activeAllocations t.allocator t.log
  some ⟨allocator, t.maxUsed, log⟩

/-! ## The tests without deallocations -/

/-- The variables of the two other tests and the calls so far. -/
structure Requests (σ : Type) where
  allocator : σ
  allocations : List Allocation
  totalRequested : ℕ
  log : CallLog

/-- An iteration of the main loop, for the size that was drawn. -/
def request (A : Allocator σ) (t : Requests σ) (size : ℕ) : Option (Requests σ) := do
  let (ptr, allocator) ← A.alloc t.allocator size
  let log := t.log ++ [(.alloc size, some ptr)]
  if ptr ≠ 0 then
    some {
      allocator := allocator
      allocations := t.allocations ++ [⟨ptr, size⟩]
      totalRequested := (t.totalRequested + size) % wordSize
      log := log }
  else some { t with allocator := allocator, log := log }

/-- The body that the two tests share. -/
def testAllocations (A : Allocator σ) (allocator : σ) (sizes : List ℕ) : Option (Result σ) := do
  let t ← sizes.foldlM (request A) ⟨allocator, [], 0, []⟩
  let (allocator, log) ← releaseAll A t.allocations t.allocator t.log
  some ⟨allocator, t.totalRequested, log⟩

/-- `test_random_allocations`. -/
def testRandomAllocations (A : Allocator σ) (allocator : σ) (draws : List RandomSize) :
    Option (Result σ) :=
  testAllocations A allocator (draws.map fun d => d.val)

/-- `test_power_of_two_allocations`. -/
def testPowerOfTwoAllocations (A : Allocator σ) (allocator : σ) (draws : List RandomPower) :
    Option (Result σ) :=
  testAllocations A allocator (draws.map fun d => 1 <<< d.val)

end UsageFactor
