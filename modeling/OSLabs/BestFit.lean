/-
# The best-fit allocator

Translation of `Labs/CP/src/list_of_free_blocks.cpp`.  The `BlockHeader`s live in the
memory they manage, so a `BlockHeader*` is an address of the byte memory and `0` is
`nullptr`.  `size_t` arithmetic wraps at `2 ^ 64`.  The search loop takes fuel and is
`none` when the fuel runs out.
-/
import OSLabs.ByteMemory
import OSLabs.AllocatorClient

namespace BestFit

/-! ## Constants -/

/-- `sizeof(BlockHeader)`. -/
abbrev sizeofBlockHeader : ℕ := 32

/-- `MINIMUM_BLOCK_SIZE`. -/
abbrev minimumBlockSize : ℕ := sizeofBlockHeader + 8

/-- The number of values of a `size_t`. -/
abbrev wordSize : ℕ := 2 ^ 64

/-- `x & ~7`. -/
def alignDown (x : ℕ) : ℕ := x / 8 * 8

/-! ## Block headers

The fields of `struct BlockHeader` at their offsets: `size` at 0, `is_free` at 8,
`next` at 16, `prev` at 24. -/

section Headers

variable (m : Memory) (block v : ℕ)

/-- `block->size`. -/
def size : ℕ := m.load64 block

/-- `block->is_free`. -/
def isFree : Bool := decide (m.read 1 (block + 8) ≠ 0)

/-- `block->next`. -/
def next : ℕ := m.load64 (block + 16)

/-- `block->prev`. -/
def prev : ℕ := m.load64 (block + 24)

/-- `block->size = v`. -/
def setSize : Memory := m.store64 block v

/-- `block->is_free = v`. -/
def setIsFree (v : Bool) : Memory := m.write 1 (block + 8) v.toNat

/-- `block->next = v`. -/
def setNext : Memory := m.store64 (block + 16) v

/-- `block->prev = v`. -/
def setPrev : Memory := m.store64 (block + 24) v

end Headers

/-! ## State -/

/-- The fields of the class and the memory it manages. -/
structure BestFitAllocator where
  head : ℕ
  totalSize : ℕ
  mem : Memory

namespace BestFitAllocator

/-- The bytes the constructor asks `mmap` for. -/
def requestedSize (memorySize : ℕ) : ℕ := alignDown ((memorySize + 7) % wordSize)

/-- The constructor.  `memory` is what `mmap` returns, `none` for `MAP_FAILED`. -/
def construct (memory : Option ℕ) (memorySize : ℕ) : Option BestFitAllocator := do
  let totalSize := requestedSize memorySize
  let head ← memory
  let mem : Memory := fun _ => 0
  let mem := setSize mem head totalSize
  let mem := setIsFree mem head true
  let mem := setNext mem head 0
  let mem := setPrev mem head 0
  some { head := head, totalSize := totalSize, mem := mem }

/-! ## `alloc` -/

/-- The `while` loop of `alloc`: the best block, `0` when there is none. -/
def search (m : Memory) (alignedSize : ℕ) :
    (fuel current bestBlock minSuitableSize : ℕ) → Option ℕ
  | 0, current, bestBlock, _ => if current = 0 then some bestBlock else none
  | fuel + 1, current, bestBlock, minSuitableSize =>
    if current = 0 then some bestBlock
    else if isFree m current ∧ size m current ≥ alignedSize ∧
        size m current < minSuitableSize then
      search m alignedSize fuel (next m current) current (size m current)
    else search m alignedSize fuel (next m current) bestBlock minSuitableSize

/-- `aligned_size` of a request. -/
def alignedSize (size : ℕ) : ℕ := alignDown ((size + sizeofBlockHeader + 7) % wordSize)

/-- The memory after `bestBlock` is split behind its first `aligned` bytes. -/
def splitBlock (m : Memory) (bestBlock aligned : ℕ) : Memory :=
  let newBlock := bestBlock + aligned
  let m := setSize m newBlock (size m bestBlock - aligned)
  let m := setIsFree m newBlock true
  let m := setNext m newBlock (next m bestBlock)
  let m := setPrev m newBlock bestBlock
  let m := if next m bestBlock ≠ 0 then setPrev m (next m bestBlock) newBlock else m
  let m := setSize m bestBlock aligned
  setNext m bestBlock newBlock

/-- `alloc`: the returned pointer and the new state. -/
def alloc (s : BestFitAllocator) (size : ℕ) : Option (ℕ × BestFitAllocator) :=
  if size = 0 then some (0, s)
  else do
    let aligned := alignedSize size
    let bestBlock ← search s.mem aligned (s.totalSize + 1) s.head 0
      ((s.totalSize + 1) % wordSize)
    if bestBlock = 0 then some (0, s)
    else
      let m :=
        if BestFit.size s.mem bestBlock ≥ (aligned + minimumBlockSize) % wordSize then
          splitBlock s.mem bestBlock aligned
        else s.mem
      let m := setIsFree m bestBlock false
      some (bestBlock + sizeofBlockHeader, { s with mem := m })

/-! ## `free` -/

/-- The merge with the following free block. -/
def mergeNext (m : Memory) (block : ℕ) : Memory :=
  if next m block ≠ 0 ∧ isFree m (next m block) then
    let m := setSize m block (size m block + size m (next m block))
    let m := setNext m block (next m (next m block))
    if next m block ≠ 0 then setPrev m (next m block) block else m
  else m

/-- The merge with the preceding free block. -/
def mergePrev (m : Memory) (block : ℕ) : Memory :=
  if prev m block ≠ 0 ∧ isFree m (prev m block) then
    let m := setSize m (prev m block) (size m (prev m block) + size m block)
    let m := setNext m (prev m block) (next m block)
    if next m block ≠ 0 then setPrev m (next m block) (prev m block) else m
  else m

/-- `free`. -/
def free (s : BestFitAllocator) (ptr : ℕ) : BestFitAllocator :=
  if ptr = 0 then s
  else
    let block := ptr - sizeofBlockHeader
    let m := setIsFree s.mem block true
    { s with mem := mergePrev (mergeNext m block) block }

end BestFitAllocator

/-! ## The allocator and its client -/

/-- The allocator as its client sees it. -/
def allocator : Allocator BestFitAllocator where
  alloc := BestFitAllocator.alloc
  free s ptr := some (s.free ptr)
  store s x v := { s with mem := Function.update s.mem x v }

/-- A client right after the constructor ran on the mapping `memory`. -/
def Start (memory memorySize : ℕ) (c : Client BestFitAllocator) : Prop :=
  BestFitAllocator.construct (some memory) memorySize = some c.heap ∧ c.live = []

/-- A step of a client that asks for sizes whose rounding does not wrap. -/
abbrev Step : Client BestFitAllocator → HeapEvent → Client BestFitAllocator → Prop :=
  Client.Step allocator fun size => size + 39 < wordSize

end BestFit
