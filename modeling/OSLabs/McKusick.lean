/-
# The McKusick–Karels allocator

Translation of `Labs/CP/src/Mckusey-Carels.cpp`.  The `PageInfo` array at
`metadata_memory` is a map from page indices to records, so a `PageInfo*` is an
index into it; the links of the block lists live in the data pages themselves, so
a `FreeBlock*` is an address of the byte memory and `0` is `nullptr`.  Arithmetic
on `size_t` and `uintptr_t` wraps at `2 ^ 64` where the operands are not known to
be small.  A `while` loop takes fuel and is `none` when the fuel runs out.
-/
import OSLabs.ByteMemory
import OSLabs.AllocatorClient

namespace McKusick

/-! ## Constants and machine arithmetic -/

/-- `PAGE_SIZE`. -/
abbrev pageSize : ℕ := 4096

/-- `MIN_BLOCK_SIZE`. -/
abbrev minBlockSize : ℕ := 32

/-- `MAX_BLOCK_SIZE`. -/
abbrev maxBlockSize : ℕ := 4096

/-- `BUCKET_COUNT`: the block sizes are 32, 64, …, 4096. -/
abbrev bucketCount : ℕ := 8

/-- `sizeof(PageInfo)`. -/
abbrev sizeofPageInfo : ℕ := 32

/-- The number of values of a `size_t`. -/
abbrev wordSize : ℕ := 2 ^ 64

/-- Subtraction of `size_t` values. -/
def sub64 (a b : ℕ) : ℕ := (a + wordSize - b) % wordSize

/-- `__builtin_clzl`, with the value 64 at zero. -/
def clzl (x : ℕ) : ℕ := 64 - Nat.size x

/-- Trailing zeros among the lowest `w` bits. -/
def trailingZeros : (w x : ℕ) → ℕ
  | 0, _ => 0
  | w + 1, x => if x % 2 = 1 then 0 else trailingZeros w (x / 2) + 1

/-- `__builtin_ctz`, whose argument is truncated to an `unsigned int`. -/
def ctz (x : ℕ) : ℕ := trailingZeros 32 (x % 2 ^ 32)

/-! ## State -/

/-- `struct PageInfo`. -/
structure PageInfo where
  pageAddr : ℕ
  size : ℕ
  next : Option ℕ
  isStartOfBuffer : Bool
  deriving DecidableEq, Repr

/-- The fields of the class, the metadata array and the bytes of the data pages. -/
structure McKusickAllocator where
  freelistarr : ℕ → ℕ
  freePageInfo : Option ℕ
  initialMemory : ℕ
  metadataMemory : ℕ
  totalPages : ℕ
  totalMetaPages : ℕ
  info : ℕ → PageInfo
  mem : Memory

/-- `info[i].next = v`. -/
def setNext (info : ℕ → PageInfo) (i : ℕ) (v : Option ℕ) : ℕ → PageInfo :=
  Function.update info i { info i with next := v }

/-! ## Sizes -/

/-- `get_bucket_index`. -/
def getBucketIndex (size : ℕ) : ℕ :=
  if size > maxBlockSize then bucketCount
  else
    -- a shift by 64 is reached for `size = 0` only and leaves no bit
    let normalized := max minBlockSize ((1 <<< (64 - clzl (sub64 size 1))) % wordSize)
    ctz normalized - 5

/-- `get_required_pages`. -/
def getRequiredPages (size : ℕ) : ℕ :=
  (size + pageSize - 1) % wordSize / pageSize

namespace McKusickAllocator

/-- `total_pages - total_meta_pages`: the number of data pages. -/
def dataPages (s : McKusickAllocator) : ℕ := sub64 s.totalPages s.totalMetaPages

/-! ## The free-page list -/

/-- The `while` loop of `insert_sorted`: the node after which `page` belongs. -/
def insertWalk (info : ℕ → PageInfo) (page : ℕ) : (fuel current : ℕ) → Option ℕ
  | 0, _ => none
  | fuel + 1, current =>
    match (info current).next with
    | none => some current
    | some n =>
      if (info n).pageAddr < (info page).pageAddr then insertWalk info page fuel n
      else some current

/-- `insert_sorted`. -/
def insertSorted (s : McKusickAllocator) (page : ℕ) : Option McKusickAllocator :=
  match s.freePageInfo with
  | none => some { s with info := setNext s.info page none, freePageInfo := some page }
  | some f =>
    if (s.info page).pageAddr < (s.info f).pageAddr then
      some { s with info := setNext s.info page (some f), freePageInfo := some page }
    else do
      let current ← insertWalk s.info page s.totalPages f
      let info := setNext s.info page (s.info current).next
      some { s with info := setNext info current (some page) }

/-- The inner `while` loop of `find_consecutive_pages`: the last page of the run and
the number of its pages. -/
def extendRun (info : ℕ → PageInfo) (potentialStart numPages : ℕ) :
    (fuel pageWalker foundConsecutive : ℕ) → Option (ℕ × ℕ)
  | 0, _, _ => none
  | fuel + 1, pageWalker, foundConsecutive =>
    if foundConsecutive < numPages then
      match (info pageWalker).next with
      | none => some (pageWalker, foundConsecutive)
      | some n =>
        let expectedAddr :=
          ((info potentialStart).pageAddr + foundConsecutive * pageSize) % wordSize
        if (info n).pageAddr ≠ expectedAddr then some (pageWalker, foundConsecutive)
        else extendRun info potentialStart numPages fuel n (foundConsecutive + 1)
    else some (pageWalker, foundConsecutive)

/-- What the outer loop of `find_consecutive_pages` stops with. -/
structure FoundRun where
  prev : Option ℕ
  potentialStart : ℕ
  pageWalker : ℕ

/-- The outer `while` loop of `find_consecutive_pages`. -/
def searchRun (info : ℕ → PageInfo) (numPages limit : ℕ) :
    (fuel : ℕ) → (current prev : Option ℕ) → Option (Option FoundRun)
  | _, none, _ => some none
  | 0, some _, _ => none
  | fuel + 1, some current, prev => do
    let (pageWalker, foundConsecutive) ← extendRun info current numPages limit current 1
    if foundConsecutive = numPages then some (some ⟨prev, current, pageWalker⟩)
    else searchRun info numPages limit fuel (info current).next (some current)

/-- The `for` loop of `find_consecutive_pages`, with `n` iterations to go: the final
`page_walker` and the metadata. -/
def linkRun : (n i pageWalker : ℕ) → (ℕ → PageInfo) → ℕ × (ℕ → PageInfo)
  | 0, _, pageWalker, info => (pageWalker, info)
  | n + 1, i, pageWalker, info =>
    linkRun n (i + 1) (pageWalker + 1)
      (Function.update info pageWalker
        { info pageWalker with
          isStartOfBuffer := decide (i = 0)
          next := some (pageWalker + 1) })

/-- `find_consecutive_pages`. -/
def findConsecutivePages (s : McKusickAllocator) (numPages : ℕ) :
    Option (Option ℕ × McKusickAllocator) :=
  if numPages = 0 then some (none, s)
  else do
    let found ← searchRun s.info numPages s.totalPages s.totalPages s.freePageInfo none
    match found with
    | none => some (none, s)
    | some ⟨prev, potentialStart, pageWalker⟩ =>
      let nextAfterRange := (s.info pageWalker).next
      let (info, head) :=
        match prev with
        | some p => (setNext s.info p nextAfterRange, s.freePageInfo)
        | none => (s.info, nextAfterRange)
      let (last, info) := linkRun (numPages - 1) 0 potentialStart info
      let info := Function.update info last
        { info last with next := none, isStartOfBuffer := false }
      some (some potentialStart, { s with info := info, freePageInfo := head })

/-! ## Blocks -/

/-- The `for` loop of `split_page`, with `n` iterations to go: the final `block_ptr`
and the memory. -/
def linkBlocks (blockSize : ℕ) : (n blockPtr : ℕ) → Memory → ℕ × Memory
  | 0, blockPtr, mem => (blockPtr, mem)
  | n + 1, blockPtr, mem =>
    linkBlocks blockSize n (blockPtr + blockSize) (mem.store64 blockPtr (blockPtr + blockSize))

/-- `split_page`. -/
def splitPage (s : McKusickAllocator) (page blockSize : ℕ) : McKusickAllocator :=
  let blocksPerPage := pageSize / blockSize
  let info := Function.update s.info page
    { s.info page with size := blockSize, isStartOfBuffer := false }
  let start := (s.info page).pageAddr
  let bucket := getBucketIndex blockSize
  let (lastBlock, mem) := linkBlocks blockSize (blocksPerPage - 1) start s.mem
  { s with
    info := info
    mem := mem.store64 lastBlock (s.freelistarr bucket)
    freelistarr := Function.update s.freelistarr bucket start }

/-- `find_page_info`. -/
def findPageInfo (s : McKusickAllocator) (ptr : ℕ) : Option ℕ :=
  if ptr = 0 then none
  else
    let pageAddr := ptr - ptr % pageSize
    let pageIndex := sub64 pageAddr s.initialMemory / pageSize
    if pageIndex ≥ s.dataPages then none else some pageIndex

/-! ## The public interface -/

/-- The first loop of the constructor. -/
def initPages (memPtr : ℕ) : ℕ → (ℕ → PageInfo) → (ℕ → PageInfo)
  | 0, info => info
  | n + 1, info =>
    let info := initPages memPtr n info
    Function.update info n
      { info n with pageAddr := memPtr + n * pageSize, size := 0, isStartOfBuffer := false }

/-- The second loop of the constructor. -/
def chainPages : ℕ → (ℕ → PageInfo) → (ℕ → PageInfo)
  | 0, info => info
  | n + 1, info => setNext (chainPages n info) n (some (n + 1))

/-- The pages the constructor asks `mmap` for. -/
def requestedPages (memorySize : ℕ) : ℕ := (memorySize + pageSize - 1) % wordSize / pageSize

/-- The pages set aside for the metadata of `totalPages` pages. -/
def metaPages (totalPages : ℕ) : ℕ :=
  let totalMetaPages := totalPages * sizeofPageInfo / pageSize
  if totalMetaPages * pageSize < totalPages * sizeofPageInfo then totalMetaPages + 1
  else totalMetaPages

/-- The constructor.  `memory` is what `mmap` returns, `none` for `MAP_FAILED`; a
fresh anonymous mapping is filled with zeros. -/
def construct (memory : Option ℕ) (memorySize : ℕ) : Option McKusickAllocator := do
  let totalPages := requestedPages memorySize
  let memory ← memory
  let totalMetaPages := metaPages totalPages
  let initialMemory := memory + pageSize * totalMetaPages
  let count := sub64 totalPages totalMetaPages
  let info := initPages initialMemory count fun _ => ⟨0, 0, none, false⟩
  let info := chainPages (sub64 count 1) info
  let info := setNext info (sub64 count 1) none
  some {
    freelistarr := fun _ => 0
    freePageInfo := some 0
    initialMemory := initialMemory
    metadataMemory := memory
    totalPages := totalPages
    totalMetaPages := totalMetaPages
    info := info
    mem := fun _ => 0 }

/-- `alloc`: the returned pointer and the new state. -/
def alloc (s : McKusickAllocator) (size : ℕ) : Option (ℕ × McKusickAllocator) :=
  if size = 0 then some (0, s)
  else if size ≤ maxBlockSize then
    let bucket := getBucketIndex size
    let take (s : McKusickAllocator) : ℕ × McKusickAllocator :=
      let block := s.freelistarr bucket
      (block,
        { s with freelistarr := Function.update s.freelistarr bucket (s.mem.load64 block) })
    if s.freelistarr bucket = 0 then
      match s.freePageInfo with
      | none => some (0, s)
      | some page =>
        let s := { s with freePageInfo := (s.info page).next }
        some (take (s.splitPage page (minBlockSize <<< bucket)))
    else some (take s)
  else do
    let (start, s) ← s.findConsecutivePages (getRequiredPages size)
    match start with
    | none => some (0, s)
    | some page =>
      let info := Function.update s.info page
        { s.info page with size := size, isStartOfBuffer := true }
      some ((info page).pageAddr, { s with info := info })

/-- The loop of `free` over the pages of a large buffer, with `n` pages to go. -/
def releasePages : (n page : ℕ) → McKusickAllocator → Option McKusickAllocator
  | 0, _, s => some s
  | n + 1, page, s => do
    let info := Function.update s.info page
      { s.info page with size := 0, isStartOfBuffer := false }
    let s ← insertSorted { s with info := info } page
    releasePages n (page + 1) s

/-- `free`. -/
def free (s : McKusickAllocator) (ptr : ℕ) : Option McKusickAllocator :=
  if ptr = 0 then some s
  else
    match s.findPageInfo ptr with
    | none => some s
    | some page =>
      if (s.info page).size ≤ maxBlockSize then
        let bucket := getBucketIndex (s.info page).size
        some { s with
          mem := s.mem.store64 ptr (s.freelistarr bucket)
          freelistarr := Function.update s.freelistarr bucket ptr }
      else if (s.info page).isStartOfBuffer then
        releasePages (getRequiredPages (s.info page).size) page s
      else some s

end McKusickAllocator

/-! ## The allocator and its client -/

/-- The allocator as its client sees it. -/
def allocator : Allocator McKusickAllocator where
  alloc := McKusickAllocator.alloc
  free := McKusickAllocator.free
  store s x v := { s with mem := Function.update s.mem x v }

/-- A client right after the constructor ran on the mapping `memory`. -/
def Start (memory memorySize : ℕ) (c : Client McKusickAllocator) : Prop :=
  McKusickAllocator.construct (some memory) memorySize = some c.heap ∧ c.live = []

/-- A step of a client: any `size_t` may be asked for. -/
abbrev Step : Client McKusickAllocator → HeapEvent → Client McKusickAllocator → Prop :=
  Client.Step allocator (· < wordSize)

end McKusick
