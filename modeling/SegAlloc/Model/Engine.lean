import SegAlloc.Model.FreeList

/-!
# Coalescing, heap extension, splitting and the fit search

`coalesce_block`, `extend_heap`, `split_block` and `find_fit`. A result of
`none` is a list loop that ran out of fuel (`miniScan`, `bucketFit`); the
functions are otherwise the source's statements in order, each reading the
memory as the previous statement left it. `sub64` is `size_t` subtraction.
-/

namespace SegAlloc.Model

open SegAlloc.Machine

/-- `x - y` in `size_t`. -/
def sub64 (x y : Nat) : Nat := (x + 2 ^ 64 - y) % 2 ^ 64

/-- `coalesce_block(block)`. -/
def coalesceBlock (s : State) (block : Nat) : Option (Nat × State) :=
  let currentSize := getSize s block
  let prevAlloc := getPrevAlloc s block
  let prev := if !prevAlloc then findPrev s block else 0
  let next := findNext s block
  let nextAlloc := getAlloc s next
  let nextSize := getSize s next
  if prevAlloc && nextAlloc then
    -- case one
    let s := writePack s next nextSize true false (isMiniBlock s block)
    some (block, insertFree s block)
  else if !prevAlloc && nextAlloc then
    -- case two
    match removeFree s prev with
    | none => none
    | some s =>
      let totalSize := (currentSize + getSize s prev) % 2 ^ 64
      let prevPrevAlloc := getPrevAlloc s prev
      let prevPrevMini := getPrevMini s prev
      let s := writePack s prev totalSize false prevPrevAlloc prevPrevMini
      let s := writePack s next nextSize true false false
      some (prev, insertFree s prev)
  else if prevAlloc && !nextAlloc then
    -- case three
    match removeFree s next with
    | none => none
    | some s =>
      let totalSize := (currentSize + nextSize) % 2 ^ 64
      let prevMini := getPrevMini s block
      let s := writePack s block totalSize false true prevMini
      let nextNext := findNext s next
      let nextNextSize := getSize s nextNext
      let nextNextAlloc := getAlloc s nextNext
      let s := writePack s nextNext nextNextSize nextNextAlloc false false
      some (block, insertFree s block)
  else
    -- case four
    match removeFree s prev with
    | none => none
    | some s =>
      match removeFree s next with
      | none => none
      | some s =>
        let totalSize := (currentSize + getSize s prev + getSize s next) % 2 ^ 64
        let prevPrevAlloc := getPrevAlloc s prev
        let prevPrevMini := getPrevMini s prev
        let s := writePack s prev totalSize false prevPrevAlloc prevPrevMini
        let nextNext := findNext s next
        let nextNextSize := getSize s nextNext
        let nextNextAlloc := getAlloc s nextNext
        let s := writePack s nextNext nextNextSize nextNextAlloc false false
        some (prev, insertFree s prev)

/-- `extend_heap(size)`: `0` when `mem_sbrk` fails. -/
def extendHeap (s : State) (size : Nat) : Option (Nat × State) :=
  let size := roundUp size dsize
  let (bp, s) := memSbrk s (toIntptr size)
  if bp = sbrkFailed then some (0, s)
  else
    let block := payloadToHeader bp
    let prevAlloc := getPrevAlloc s block
    let prevMini := getPrevMini s block
    let s := writePack s block size false prevAlloc prevMini
    let blockNext := findNext s block
    let s := writeEpilogue s blockNext (getAlloc s block) (isMiniBlock s block)
    coalesceBlock s block

/-- `split_block(block, asize)`: the remainder block, or `0`. -/
def splitBlock (s : State) (block asize : Nat) : Nat × State :=
  let blockSize := getSize s block
  let prevAlloc := getPrevAlloc s block
  let prevMini := getPrevMini s block
  if sub64 blockSize asize ≥ minBlockSize then
    let s := writePack s block asize true prevAlloc prevMini
    let blockNext := findNext s block
    let s := writePack s blockNext (sub64 blockSize asize) false true (asize == minBlockSize)
    let nextNext := findNext s blockNext
    let s := writePrevAlloc s nextNext false
    (blockNext, s)
  else (0, s)

/-- The `while (block != NULL)` loop of `find_fit` over one bucket, from `block` with the
best fit so far `best`; it returns `best` at the end of the list or at the first fitting
block that is not smaller than `best`. -/
def bucketFit (s : State) (asize : Nat) : Nat → Nat → Nat → Option Nat
  | 0, _, _ => none
  | fuel + 1, block, best =>
    if block = 0 then some best
    else if !getAlloc s block && asize ≤ getSize s block then
      if best = 0 then bucketFit s asize fuel (readWord s.mem (nextField block)) block
      else if getSize s block < getSize s best then
        bucketFit s asize fuel (readWord s.mem (nextField block)) block
      else some best
    else bucketFit s asize fuel (readWord s.mem (nextField block)) best

/-- The `for (i = class; i < LENGTH; i++)` loop of `find_fit`; `n` is `LENGTH - i`. -/
def classFit (s : State) (asize : Nat) : Nat → Nat → Option Nat
  | 0, _ => some 0
  | n + 1, i =>
    match bucketFit s asize (loopFuel s) (s.segList i) 0 with
    | none => none
    | some best => if best ≠ 0 then some best else classFit s asize n (i + 1)

/-- `find_fit(asize)`. -/
def findFit (s : State) (asize : Nat) : Option Nat :=
  if asize = minBlockSize ∧ s.miniList ≠ 0 then some s.miniList
  else classFit s asize (LENGTH - findClass asize) (findClass asize)

end SegAlloc.Model
