import SegAlloc.Model.Engine

/-!
# The public interface

`mm_init`, `malloc`, `free`, `realloc` and `calloc`, returning the payload
pointer (`0` for `NULL`) with the state after the call. The debug-build checks
(`dbg_requires(mm_checkheap(...))`) emit no code and are left out.
-/

namespace SegAlloc.Model

open SegAlloc.Machine

/-- `mm_init()`. -/
def mmInit (s : State) : Option (Bool × State) :=
  let (start, s) := memSbrk s (2 * wsize)
  if start = sbrkFailed then some (false, s)
  else
    let s := { s with segList := fun i => if i < LENGTH then 0 else s.segList i }
    let s := { s with miniList := 0 }
    let s := s.setWord start (packAll 0 true false false)
    let s := s.setWord (start + wsize) (packAll 0 true true false)
    let s := { s with heapStart := start + wsize }
    match extendHeap s chunksize with
    | none => none
    | some (b, s) => some (b ≠ 0, s)

/-- The part of `malloc` after the fit search, on the free block `block` it found:
`remove_free`, mark the block allocated, tell its right neighbour, `split_block`, and
coalesce the remainder. -/
def place (s : State) (block asize : Nat) : Option State :=
  match removeFree s block with
  | none => none
  | some s =>
    let blockSize := getSize s block
    let prevAlloc := getPrevAlloc s block
    let prevMini := getPrevMini s block
    let s := writePack s block blockSize true prevAlloc prevMini
    let next := findNext s block
    let s := writePrevAlloc s next true
    let (temp, s) := splitBlock s block asize
    if temp ≠ 0 then (coalesceBlock s temp).map Prod.snd else some s

/-- `place` on a block that `split_block` leaves whole. -/
theorem place_of_whole {s s₁ s₂ : State} {b asize : Nat} (h : removeFree s b = some s₁)
    (hs : splitBlock (writePrevAlloc (writePack s₁ b (getSize s₁ b) true (getPrevAlloc s₁ b)
      (getPrevMini s₁ b)) (findNext (writePack s₁ b (getSize s₁ b) true (getPrevAlloc s₁ b)
        (getPrevMini s₁ b)) b) true) b asize = (0, s₂)) :
    place s b asize = some s₂ := by
  simp [place, h, hs]

/-- The body of `malloc(size)` after the initialisation check. -/
def mallocInit (s : State) (size : Nat) : Option (Nat × State) :=
  if size = 0 then some (0, s)
  else
    let asize := roundUp ((size + wsize) % 2 ^ 64) dsize
    match findFit s asize with
    | none => none
    | some block =>
      let found : Option (Nat × State) :=
        if block = 0 then extendHeap s (max asize chunksize) else some (block, s)
      match found with
      | none => none
      | some (block, s) =>
        if block = 0 then some (0, s)
        else (place s block asize).map fun s => (headerToPayload block, s)

/-- `malloc` body when the fit search finds a block. -/
theorem mallocInit_of_fit {s : State} {size asize block : Nat} (h0 : size ≠ 0)
    (ha : roundUp ((size + wsize) % 2 ^ 64) dsize = asize) (hfit : findFit s asize = some block)
    (hb : block ≠ 0) :
    mallocInit s size = (place s block asize).map fun s => (headerToPayload block, s) := by
  rw [mallocInit, if_neg h0]
  simp only [ha, hfit, hb, ↓reduceIte]

/-- `malloc(size)`. -/
def malloc (s : State) (size : Nat) : Option (Nat × State) :=
  if s.heapStart = 0 then
    match mmInit s with
    | none => none
    | some (ok, s) => if !ok then some (0, s) else mallocInit s size
  else mallocInit s size

/-- `free(bp)`. -/
def free (s : State) (bp : Nat) : Option State :=
  if bp = 0 then some s
  else
    let block := payloadToHeader bp
    let blockSize := getSize s block
    let prevAlloc := getPrevAlloc s block
    let prevMini := getPrevMini s block
    let s := writePack s block blockSize false prevAlloc prevMini
    let next := findNext s block
    let s := writePrevAlloc s next false
    (coalesceBlock s block).map Prod.snd

/-- `realloc(ptr, size)`. -/
def realloc (s : State) (ptr size : Nat) : Option (Nat × State) :=
  let block := payloadToHeader ptr
  if size = 0 then (free s ptr).map fun s => (0, s)
  else if ptr = 0 then malloc s size
  else
    match malloc s size with
    | none => none
    | some (newptr, s) =>
      if newptr = 0 then some (0, s)
      else
        let copysize := sub64 (getSize s block) wsize
        let copysize := if size < copysize then size else copysize
        let s := { s with mem := memcpy s.mem newptr ptr copysize }
        (free s ptr).map fun s => (newptr, s)

/-- `calloc(elements, size)`. -/
def calloc (s : State) (elements size : Nat) : Option (Nat × State) :=
  let asize := elements * size % 2 ^ 64
  if elements = 0 then some (0, s)
  else if asize / elements ≠ size then some (0, s)
  else
    match malloc s asize with
    | none => none
    | some (bp, s) =>
      if bp = 0 then some (0, s)
      else some (bp, { s with mem := memset s.mem bp 0 asize })

end SegAlloc.Model
