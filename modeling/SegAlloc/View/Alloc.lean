import SegAlloc.View.Heap

/-!
# The allocator over the decoded heap

The operations of `mm.c` stated on `Heap`: blocks are list entries and the
free lists are lists of addresses, so a header rewrite is a change of one list
entry, a merge or a split a change of a stretch of the list, and
`insert_free` / `remove_free` a `cons` / `erase` on the list selected by the
block's size. Each function follows its source function case by case; the
refinement modules show that the byte-level model computes the same results.
Sums of sizes are unbounded here; `Refine` shows that the `size_t` sums of
the source never wrap.
-/

namespace SegAlloc.View

open SegAlloc.Machine SegAlloc.Model

namespace Heap

/-- The free list a block of `size` bytes belongs on. -/
def listFor (H : Heap) (size : Nat) : List Nat :=
  if size = minBlockSize then H.mini else H.seg (findClass size)

/-- `insert_free`: push `x` on the list selected by `size`. -/
def push (H : Heap) (x size : Nat) : Heap :=
  if size = minBlockSize then { H with mini := x :: H.mini }
  else { H with seg := Function.update H.seg (findClass size) (x :: H.seg (findClass size)) }

/-- `remove_free`: delete `x` from the list selected by `size`. -/
def erase (H : Heap) (x size : Nat) : Heap :=
  if size = minBlockSize then { H with mini := H.mini.erase x }
  else { H with seg := Function.update H.seg (findClass size) ((H.seg (findClass size)).erase x) }

@[simp] theorem push_blocks (H : Heap) (x size : Nat) : (H.push x size).blocks = H.blocks := by
  unfold push; split <;> rfl
@[simp] theorem push_lib (H : Heap) (x size : Nat) : (H.push x size).lib = H.lib := by
  unfold push; split <;> rfl
@[simp] theorem erase_blocks (H : Heap) (x size : Nat) : (H.erase x size).blocks = H.blocks := by
  unfold erase; split <;> rfl
@[simp] theorem erase_lib (H : Heap) (x size : Nat) : (H.erase x size).lib = H.lib := by
  unfold erase; split <;> rfl
theorem erase_mini (H : Heap) (x size : Nat) :
    (H.erase x size).mini = if size = minBlockSize then H.mini.erase x else H.mini := by
  unfold erase; split <;> rfl
theorem erase_seg (H : Heap) (x size j : Nat) : (H.erase x size).seg j =
    if size ≠ minBlockSize ∧ j = findClass size then (H.seg j).erase x else H.seg j := by
  unfold erase; split_ifs <;> simp_all [Function.update_apply]
theorem push_mini (H : Heap) (x size : Nat) :
    (H.push x size).mini = if size = minBlockSize then x :: H.mini else H.mini := by
  unfold push; split <;> rfl
theorem push_seg (H : Heap) (x size j : Nat) : (H.push x size).seg j =
    if size ≠ minBlockSize ∧ j = findClass size then x :: H.seg j else H.seg j := by
  unfold push; split_ifs <;> simp_all [Function.update_apply]
theorem push_withBlocks (H : Heap) (bs : List Blk) (x size : Nat) :
    (H.withBlocks bs).push x size = (H.push x size).withBlocks bs := by
  unfold push; split <;> rfl
theorem erase_withBlocks (H : Heap) (bs : List Blk) (x size : Nat) :
    (H.withBlocks bs).erase x size = (H.erase x size).withBlocks bs := by
  unfold erase; split <;> rfl

/-- `remove_free` undoes `insert_free`. -/
theorem erase_push (H : Heap) (x size : Nat) : (H.push x size).erase x size = H := by
  unfold push erase
  split_ifs <;> simp [List.erase_cons_head, Function.update_idem]

@[simp] theorem listFor_withBlocks (H : Heap) (bs : List Blk) (size : Nat) :
    (H.withBlocks bs).listFor size = H.listFor size := rfl

/-- The block at address `a`. -/
def blockAt (H : Heap) (a : Nat) : Option Blk := H.blocks.find? (·.addr == a)

/-- `get_size` of the block at `a`, as its header says. -/
def sizeAt (H : Heap) (a : Nat) : Nat := (H.blockAt a).elim 0 (·.size)

/-- `get_alloc` of the block at `a`, as its header says. -/
def allocAt (H : Heap) (a : Nat) : Bool := (H.blockAt a).elim false (·.alloc)

end Heap

/-- The blocks before the one at `a`, that block, and the blocks after it. -/
def locate (a : Nat) (bs : List Blk) : Option (List Blk × Blk × List Blk) :=
  match bs.span (·.addr != a) with
  | (pre, b :: post) => some (pre, b, post)
  | (_, []) => none

/-- `coalesce_block(block)` for the free block at `a`, which is on no list. -/
def coalesce (H : Heap) (a : Nat) : Nat × Heap :=
  match locate a H.blocks with
  | none => (a, H)
  | some (pre, B, post) =>
    match post with
    | [] => (a, H)
    | N :: post' =>
      if B.prevAlloc then
        if N.alloc then
          -- case one
          let N' := { N with alloc := true, prevAlloc := false, prevMini := B.size == minBlockSize }
          (a, (H.withBlocks (pre ++ B :: N' :: post')).push a B.size)
        else
          match post' with
          | [] => (a, H)
          | NN :: post'' =>
            -- case three
            let M : Blk := ⟨a, B.size + N.size, false, true, B.prevMini⟩
            let NN' := { NN with prevAlloc := false, prevMini := false }
            (a, ((H.erase N.addr N.size).withBlocks (pre ++ M :: NN' :: post'')).push a M.size)
      else
        match pre.getLast? with
        | none => (a, H)
        | some P =>
          if N.alloc then
            -- case two
            let M : Blk := ⟨P.addr, P.size + B.size, false, P.prevAlloc, P.prevMini⟩
            let N' := { N with alloc := true, prevAlloc := false, prevMini := false }
            (P.addr, ((H.erase P.addr P.size).withBlocks (pre.dropLast ++ M :: N' :: post')).push
              P.addr M.size)
          else
            match post' with
            | [] => (a, H)
            | NN :: post'' =>
              -- case four
              let M : Blk := ⟨P.addr, P.size + B.size + N.size, false, P.prevAlloc, P.prevMini⟩
              let NN' := { NN with prevAlloc := false, prevMini := false }
              (P.addr, (((H.erase P.addr P.size).erase N.addr N.size).withBlocks
                (pre.dropLast ++ M :: NN' :: post'')).push P.addr M.size)

/-- `extend_heap(size)`: the new block replaces the epilogue, a new epilogue follows it,
and the block is coalesced; `0` when `mem_sbrk` fails. -/
def extend (H : Heap) (size : Nat) : Nat × Heap :=
  let size := roundUp size dsize
  let (bp, lib) := H.lib.sbrk (toIntptr size)
  if bp = sbrkFailed then (0, { H with lib := lib })
  else
    match H.blocks.getLast? with
    | none => (0, { H with lib := lib })
    | some epi =>
      let E : Blk := ⟨epi.addr, size, false, epi.prevAlloc, epi.prevMini⟩
      let epi' : Blk := ⟨epi.addr + size, 0, true, false, size == minBlockSize⟩
      coalesce { H with lib := lib, blocks := H.blocks.dropLast ++ [E, epi'] } epi.addr

/-- `split_block(block, asize)` for the allocated block at `a`: the remainder's address,
or `0`. -/
def split (H : Heap) (a asize : Nat) : Nat × Heap :=
  match locate a H.blocks with
  | none => (0, H)
  | some (pre, B, post) =>
    if asize + minBlockSize ≤ B.size then
      let A := { B with size := asize }
      let R : Blk := ⟨a + asize, B.size - asize, false, true, asize == minBlockSize⟩
      (R.addr, H.withBlocks (pre ++ A :: R :: post))
    else (0, H)

/-- The bucket loop of `find_fit`. -/
def bucketFit (H : Heap) (asize : Nat) : List Nat → Nat → Nat
  | [], best => best
  | x :: l, best =>
    if !H.allocAt x && asize ≤ H.sizeAt x then
      if best = 0 then bucketFit H asize l x
      else if H.sizeAt x < H.sizeAt best then bucketFit H asize l x
      else best
    else bucketFit H asize l best

/-- The class loop of `find_fit`, over `n` buckets from `i`. -/
def classFit (H : Heap) (asize : Nat) : Nat → Nat → Nat
  | 0, _ => 0
  | n + 1, i =>
    let best := bucketFit H asize (H.seg i) 0
    if best ≠ 0 then best else classFit H asize n (i + 1)

/-- `find_fit(asize)`. -/
def findFit (H : Heap) (asize : Nat) : Nat :=
  if asize = minBlockSize ∧ H.mini ≠ [] then H.mini.headD 0
  else classFit H asize (LENGTH - findClass asize) (findClass asize)

/-- The part of `malloc` after the fit search: take the free block at `b` off its list,
mark it allocated, tell its right neighbour, split off the rest and coalesce it. -/
def place (H : Heap) (b asize : Nat) : Heap :=
  match locate b H.blocks with
  | none => H
  | some (pre, B, post) =>
    let H := H.erase b B.size
    let post := match post with
      | N :: post => { N with prevAlloc := true } :: post
      | [] => []
    let H := H.withBlocks (pre ++ { B with alloc := true } :: post)
    let (r, H) := split H b asize
    if r ≠ 0 then (coalesce H r).2 else H

/-- Coalescing, splitting and placing leave the `memlib` side alone. -/
@[simp] theorem coalesce_lib (H : Heap) (a : Nat) : (coalesce H a).2.lib = H.lib := by
  unfold coalesce
  repeat' (first | split | simp only [Heap.push_lib, Heap.erase_lib, Heap.withBlocks_lib])

@[simp] theorem split_lib (H : Heap) (a asize : Nat) : (split H a asize).2.lib = H.lib := by
  unfold split
  repeat' (first | split | rfl)

@[simp] theorem place_lib (H : Heap) (b asize : Nat) : (place H b asize).lib = H.lib := by
  unfold place
  split
  · rfl
  · dsimp only
    split_ifs <;> simp only [coalesce_lib, split_lib, Heap.withBlocks_lib, Heap.erase_lib]

/-- `extend_heap` leaves `memlib` as `mem_sbrk` left it. -/
theorem extend_lib (H : Heap) (z : Nat) :
    (extend H z).2.lib = (H.lib.sbrk (toIntptr (roundUp z dsize))).2 := by
  unfold extend
  dsimp only
  split_ifs
  · rfl
  · split
    · rfl
    · rw [coalesce_lib]

/-- `malloc(size)` on an initialised heap. -/
def malloc (H : Heap) (size : Nat) : Nat × Heap :=
  if size = 0 then (0, H)
  else
    let asize := roundUp ((size + wsize) % 2 ^ 64) dsize
    let b := findFit H asize
    let (b, H) := if b = 0 then extend H (max asize chunksize) else (b, H)
    if b = 0 then (0, H) else (headerToPayload b, place H b asize)

/-- `free(bp)`. -/
def free (H : Heap) (bp : Nat) : Heap :=
  if bp = 0 then H
  else
    match locate (payloadToHeader bp) H.blocks with
    | none => H
    | some (pre, B, post) =>
      (coalesce (H.withBlocks (pre ++ { B with alloc := false } :: post)) (payloadToHeader bp)).2

/-- `realloc(ptr, size)`: the metadata of the copy is that of `malloc` then `free`. -/
def realloc (H : Heap) (ptr size : Nat) : Nat × Heap :=
  if size = 0 then (0, free H ptr)
  else if ptr = 0 then malloc H size
  else
    let (q, H) := malloc H size
    if q = 0 then (0, H) else (q, free H ptr)

/-- `calloc(elements, size)`. -/
def calloc (H : Heap) (elements size : Nat) : Nat × Heap :=
  let asize := elements * size % 2 ^ 64
  if elements = 0 then (0, H)
  else if asize / elements ≠ size then (0, H)
  else malloc H asize

/-- `malloc` calls `mem_sbrk` once at most, through `extend_heap`. -/
theorem malloc_grown (H : Heap) (n : Nat) : H.lib.Grown (malloc H n).2.lib 1 := by
  unfold malloc
  split_ifs with h0
  · exact (MemLib.Grown.refl _).mono (Nat.zero_le 1)
  dsimp only
  by_cases hb : findFit H (roundUp ((n + wsize) % 2 ^ 64) dsize) = 0
  · simp only [hb, if_true]
    have := extend_lib H (max (roundUp ((n + wsize) % 2 ^ 64) dsize) chunksize) ▸
      MemLib.grown_sbrk H.lib _
    split_ifs <;> simpa only [place_lib]
  · simp only [hb, if_false, place_lib]
    exact (MemLib.Grown.refl _).mono (Nat.zero_le 1)

/-- `free` does not touch `memlib`. -/
theorem free_lib (H : Heap) (p : Nat) : (free H p).lib = H.lib := by
  unfold free
  split_ifs
  · rfl
  · split
    · rfl
    · rw [coalesce_lib, Heap.withBlocks_lib]

theorem realloc_grown (H : Heap) (p n : Nat) : H.lib.Grown (realloc H p n).2.lib 1 := by
  unfold realloc
  split_ifs
  · rw [free_lib]
    exact (MemLib.Grown.refl _).mono (Nat.zero_le 1)
  · exact malloc_grown H n
  · dsimp only
    split_ifs <;> simp only [free_lib] <;> exact malloc_grown H n

theorem calloc_grown (H : Heap) (k z : Nat) : H.lib.Grown (calloc H k z).2.lib 1 := by
  unfold calloc
  dsimp only
  split_ifs
  · exact (MemLib.Grown.refl _).mono (Nat.zero_le 1)
  · exact (MemLib.Grown.refl _).mono (Nat.zero_le 1)
  · exact malloc_grown H _

/-- The heap `mm_init` lays out before extending it: the epilogue alone. -/
def Heap.empty (lib : MemLib) (start : Nat) : Heap :=
  ⟨lib, [⟨start + wsize, 0, true, true, false⟩], [], fun _ => []⟩

end SegAlloc.View
