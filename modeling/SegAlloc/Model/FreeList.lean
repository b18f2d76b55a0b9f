import SegAlloc.Model.State

/-!
# Size classes and the free lists

`find_class`, `is_head`, `insert_free` and `remove_free`. The buckets
`seg_list[i]` are doubly linked through `payload.prev` (`block + 8`) and
`payload.next` (`block + 16`); the mini list is singly linked through
`mini_block->next` (`block + 8`). The middle-or-tail branch of the mini-list
removal scans with `while (curr->next != mini_block)`; `miniScan` runs it with
fuel and gives `none` when the fuel is spent.
-/

namespace SegAlloc.Model

open SegAlloc.Machine

/-- `find_class(asize)`. -/
def findClass (asize : Nat) : Nat :=
  if asize < 32 then 0
  else if asize < 64 then 1
  else if asize < 128 then 2
  else if asize < 256 then 3
  else if asize < 512 then 4
  else if asize < 1024 then 5
  else if asize < 2048 then 6
  else if asize < 3072 then 7
  else if asize < 4096 then 8
  else if asize < 6656 then 9
  else if asize < 8192 then 10
  else if asize < 16384 then 11
  else if asize < 32768 then 12
  else 13

theorem findClass_lt (asize : Nat) : findClass asize < LENGTH := by
  rw [LENGTH, findClass]
  simp only [apply_ite (· < 14)]
  simp

/-- `block->payload.prev` -/
def prevField (block : Nat) : Nat := block + 8

/-- `block->payload.next` -/
def nextField (block : Nat) : Nat := block + 16

/-- `mini_block->next` -/
def miniNextField (block : Nat) : Nat := block + 8

/-- `is_head(block)`: the class index if `block` heads its bucket, else `-1`. -/
def isHead (s : State) (block : Nat) : Int :=
  let c := findClass (getSize s block)
  if block = s.segList c then c else -1

/-- `insert_free(block)`. -/
def insertFree (s : State) (block : Nat) : State :=
  if isMiniBlock s block then
    if s.miniList ≠ 0 then
      let s := s.setWord (miniNextField block) s.miniList
      { s with miniList := block }
    else
      let s := { s with miniList := block }
      s.setWord (miniNextField s.miniList) 0
  else
    let c := findClass (getSize s block)
    let curr := s.segList c
    let s := { s with segList := Function.update s.segList c block }
    if curr ≠ 0 then
      let s := s.setWord (prevField curr) block
      s.setWord (nextField block) curr
    else
      let s := s.setWord (nextField block) 0
      s.setWord (prevField block) 0

/-- `while (curr->next != mini_block) curr = curr->next;` with `fuel` rounds. -/
def miniScan (m : Mem) (target : Nat) : Nat → Nat → Option Nat
  | 0, _ => none
  | fuel + 1, curr =>
    if readWord m (miniNextField curr) ≠ target then
      miniScan m target fuel (readWord m (miniNextField curr))
    else some curr

/-- The fuel of the list loops: no list of distinct blocks of the heap `[lo, brk)` is
as long as `brk`. -/
def loopFuel (s : State) : Nat := s.lib.brk

/-- `remove_free(block)`. After the head and tail cases the source tests
`!head && !tail`, which holds there. -/
def removeFree (s : State) (block : Nat) : Option State :=
  if isMiniBlock s block then
    if readWord s.mem (miniNextField s.miniList) = 0 then
      some { s with miniList := 0 }
    else if block = s.miniList then
      some { s with miniList := readWord s.mem (miniNextField s.miniList) }
    else
      match miniScan s.mem block (loopFuel s) s.miniList with
      | none => none
      | some curr => some (s.setWord (miniNextField curr) (readWord s.mem (miniNextField block)))
  else
    let prev := readWord s.mem (prevField block)
    let next := readWord s.mem (nextField block)
    let headInd := isHead s block
    let head := headInd ≠ -1
    let tail := readWord s.mem (nextField block) = 0
    if head then
      some { s with segList := Function.update s.segList headInd.toNat next }
    else if tail then
      some (s.setWord (nextField prev) 0)
    else
      let s := s.setWord (nextField prev) next
      some (s.setWord (prevField next) prev)

/-- Removing the head of a segregated list only moves the head to its successor; the
successor's `prev` field is left as it was. -/
theorem removeFree_of_head {s : State} {b : Nat} (hm : isMiniBlock s b = false)
    (hh : s.segList (findClass (getSize s b)) = b) :
    removeFree s b = some { s with
      segList := Function.update s.segList (findClass (getSize s b)) (readWord s.mem (nextField b)) } := by
  simp [removeFree, hm, isHead, hh]

/-- `insert_free` keeps the heap bounds and `heap_start`. -/
theorem insertFree_bounds (s : State) (b : Nat) :
    (insertFree s b).lib = s.lib ∧ (insertFree s b).heapStart = s.heapStart := by
  unfold insertFree
  dsimp only
  split_ifs <;> exact ⟨rfl, rfl⟩

/-- `remove_free` keeps the heap bounds and `heap_start`. -/
theorem removeFree_bounds {s s' : State} {b : Nat} (h : removeFree s b = some s') :
    s'.lib = s.lib ∧ s'.heapStart = s.heapStart := by
  unfold removeFree at h
  dsimp only at h
  split_ifs at h <;> (try split at h) <;> cases h <;> exact ⟨rfl, rfl⟩

end SegAlloc.Model
