import SegAlloc.Model.FreeList

/-!
# The heap checker

`mm_checkheap` and the checks it calls, as `mm.c` computes them. The debug build asserts
`mm_checkheap` on entry to `malloc`, `free`, `realloc` and `calloc` and on exit from `malloc`
and `free`. `general_heap_checker` walks the heap from `heap_start` by `find_next` to the
epilogue at `mem_heap_hi() - 7`, checking each block; `check_list` walks each bucket from
`seg_list[i]` by the `next` words to `NULL`. Both loops run with fuel (`loopFuel`), and
`none` is the result of a walk that the fuel does not finish. The `line` argument of
`mm_checkheap` only labels debug output and is left out.
-/

namespace SegAlloc.Model

open SegAlloc.Machine

/-- `check_prologue_epilogue()`: the prologue at `mem_heap_lo()` and the epilogue at
`mem_heap_hi() - 7` are allocated and have size 0. -/
def checkPrologueEpilogue (s : State) : Bool :=
  let prologue := memHeapLo s
  let epilogue := memHeapHi s - 7
  extractAlloc (readWord s.mem prologue) && getAlloc s epilogue &&
    extractSize (readWord s.mem prologue) == 0 && getSize s epilogue == 0

/-- `check_alignment(block)`. -/
def checkAlignment (block : Nat) : Bool := headerToPayload block % 16 == 0

/-- `check_boundary(block)`. -/
def checkBoundary (s : State) (block : Nat) : Bool :=
  if block > memHeapHi s then false
  else if block < memHeapLo s then false
  else true

/-- `check_non_consecutive_free(block)`. -/
def checkNonConsecutiveFree (s : State) (block : Nat) : Bool :=
  let next := findNext s block
  if !getAlloc s block && !getAlloc s next then false else true

/-- `check_header_footer_match(block)`: a free block whose successor does not flag it as
mini has its footer equal to its header. -/
def checkHeaderFooterMatch (s : State) (block : Nat) : Bool :=
  let currAlloc := getAlloc s block
  let header := readWord s.mem block
  let footer := readWord s.mem (headerToFooter s block)
  let next := findNext s block
  let isMini := getPrevMini s next
  if !currAlloc && !isMini && header != footer then false else true

/-- `check_block_size(block)`. -/
def checkBlockSize (s : State) (block : Nat) : Bool :=
  let size := getSize s block
  if size < minBlockSize || size % 16 != 0 then false else true

/-- The body of the loop of `general_heap_checker`: the five checks of a block, in the
order the source makes them. -/
def checkBlock (s : State) (curr : Nat) : Bool :=
  checkAlignment curr && checkBoundary s curr && checkBlockSize s curr &&
    checkHeaderFooterMatch s curr && checkNonConsecutiveFree s curr

/-- `while (curr != epilogue)` of `general_heap_checker`, with `fuel` rounds. -/
def checkBlocks (s : State) (epilogue : Nat) : Nat → Nat → Option Bool
  | 0, _ => none
  | fuel + 1, curr =>
    if curr = epilogue then some true
    else if checkBlock s curr then checkBlocks s epilogue fuel (findNext s curr)
    else some false

/-- `general_heap_checker()`. -/
def generalHeapChecker (s : State) : Option Bool :=
  if !checkPrologueEpilogue s then some false
  else checkBlocks s (memHeapHi s - 7) (loopFuel s) s.heapStart

/-- `while (curr != NULL)` of `check_list` over bucket `i`, with `fuel` rounds: each node
lies in the heap, the node after it points back to it, and its size class is `i`. -/
def checkBucket (s : State) (i : Nat) : Nat → Nat → Option Bool
  | 0, _ => none
  | fuel + 1, curr =>
    if curr = 0 then some true
    else if curr > memHeapHi s then some false
    else if curr < memHeapLo s then some false
    else
      let next := readWord s.mem (nextField curr)
      if next ≠ 0 ∧ readWord s.mem (prevField next) ≠ curr then some false
      else if findClass (getSize s curr) ≠ i then some false
      else checkBucket s i fuel next

/-- `check_list()`: the buckets `0, …, LENGTH - 1` in turn, stopping at the first that
fails. The mini list is not checked. -/
def checkList (s : State) : Option Bool :=
  (List.range LENGTH).allM fun i => checkBucket s i (loopFuel s) (s.segList i)

/-- `mm_checkheap(line)`. -/
def mmCheckheap (s : State) : Option Bool :=
  (generalHeapChecker s).bind fun ok => if !ok then some false else checkList s

end SegAlloc.Model
