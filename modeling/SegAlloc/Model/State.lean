import SegAlloc.Machine.Memory
import SegAlloc.Machine.Word

/-!
# Allocator state and block helpers

The globals of `mm.c` (`heap_start`, `seg_list`, `mini_list`) over the byte
memory, together with the `memlib` side they are laid on: the heap array
`[lo, brk)` and the outcomes of `mem_sbrk`. The short helpers of `mm.c`
(`get_size`, `find_next`, `find_prev`, `write_pack`, `write_prev_alloc`, ...)
follow. Pointers are addresses, `NULL` is `0`, and `block->payload.prev`,
`block->payload.next` and `mini_block->next` are the words at `block + 8`,
`block + 16` and `block + 8`.
-/

namespace SegAlloc.Model

open SegAlloc.Machine

/-- The `memlib` side of the state: the heap array is `[lo, brk)`; the `n`-th call of
`mem_sbrk` may succeed only if `grant n`. -/
structure MemLib where
  lo : Nat
  brk : Nat
  grant : Nat → Bool
  calls : Nat

structure State where
  mem : Mem
  lib : MemLib
  /-- `heap_start` -/
  heapStart : Nat
  /-- `seg_list` -/
  segList : Nat → Nat
  /-- `mini_list` -/
  miniList : Nat

/-- `(void *)-1`, the failure value of `mem_sbrk`. -/
def sbrkFailed : Nat := 2 ^ 64 - 1

/-- The cast `(intptr_t)size` of a `size_t`. -/
def toIntptr (size : Nat) : Int := if size < 2 ^ 63 then size else (size : Int) - 2 ^ 64

/-- `mem_sbrk(incr)` on the `memlib` side: the old break and the grown heap, or
`(void *)-1` and the heap unchanged. Modelled from the spec: `memlib` is not in the
sources. A negative increment, or one past the 64-bit address space, fails. -/
def MemLib.sbrk (lib : MemLib) (incr : Int) : Nat × MemLib :=
  let lib' := { lib with calls := lib.calls + 1 }
  if 0 ≤ incr ∧ lib.grant lib.calls = true ∧ lib.brk + incr.toNat ≤ 2 ^ 64 then
    (lib.brk, { lib' with brk := lib.brk + incr.toNat })
  else (sbrkFailed, lib')

@[simp] theorem MemLib.sbrk_lo (lib : MemLib) (incr : Int) : (lib.sbrk incr).2.lo = lib.lo := by
  unfold MemLib.sbrk; split <;> rfl

@[simp] theorem MemLib.sbrk_grant (lib : MemLib) (incr : Int) :
    (lib.sbrk incr).2.grant = lib.grant := by
  unfold MemLib.sbrk; split <;> rfl

@[simp] theorem MemLib.sbrk_calls (lib : MemLib) (incr : Int) :
    (lib.sbrk incr).2.calls = lib.calls + 1 := by
  unfold MemLib.sbrk; split <;> rfl

/-- A granted `mem_sbrk` returns the old break and grows the heap by the increment. -/
theorem MemLib.sbrk_of_grant {lib : MemLib} {incr : Int}
    (h : 0 ≤ incr ∧ lib.grant lib.calls = true ∧ lib.brk + incr.toNat ≤ 2 ^ 64) :
    (lib.sbrk incr).1 = lib.brk ∧ (lib.sbrk incr).2.brk = lib.brk + incr.toNat := by
  simp only [MemLib.sbrk]
  rw [if_pos h]
  exact ⟨rfl, rfl⟩

/-- A refused `mem_sbrk` returns `(void *)-1` and keeps the heap. -/
theorem MemLib.sbrk_of_refuse {lib : MemLib} {incr : Int}
    (h : ¬(0 ≤ incr ∧ lib.grant lib.calls = true ∧ lib.brk + incr.toNat ≤ 2 ^ 64)) :
    (lib.sbrk incr).1 = sbrkFailed ∧ (lib.sbrk incr).2.brk = lib.brk := by
  simp only [MemLib.sbrk]
  rw [if_neg h]
  exact ⟨rfl, rfl⟩

/-- A `mem_sbrk` of a `size_t` that did not fail returned the old break, and the heap
grew by exactly the size, inside the address space. -/
theorem MemLib.sbrk_granted {lib : MemLib} {z : Nat} (hz : z < 2 ^ 64)
    (h : (lib.sbrk (toIntptr z)).1 ≠ sbrkFailed) :
    (lib.sbrk (toIntptr z)).1 = lib.brk ∧ (lib.sbrk (toIntptr z)).2.brk = lib.brk + z ∧
      lib.brk + z ≤ 2 ^ 64 := by
  by_cases hc : 0 ≤ toIntptr z ∧ lib.grant lib.calls = true ∧ lib.brk + (toIntptr z).toNat ≤ 2 ^ 64
  · have hn : (toIntptr z).toNat = z := by
      have := hc.1
      unfold toIntptr at this ⊢
      split_ifs at this ⊢ <;> omega
    obtain ⟨h1, h2⟩ := MemLib.sbrk_of_grant hc
    exact ⟨h1, by rw [h2, hn], hn ▸ hc.2.2⟩
  · exact absurd (MemLib.sbrk_of_refuse hc).1 h

/-- A `mem_sbrk` that failed left the break where it was, unless the break itself reads as
the failure value. -/
theorem MemLib.sbrk_failed_brk {lib : MemLib} {incr : Int} (hb : lib.brk ≠ sbrkFailed)
    (h : (lib.sbrk incr).1 = sbrkFailed) : (lib.sbrk incr).2.brk = lib.brk := by
  by_cases hc : 0 ≤ incr ∧ lib.grant lib.calls = true ∧ lib.brk + incr.toNat ≤ 2 ^ 64
  · exact absurd ((MemLib.sbrk_of_grant hc).1.symm.trans h) hb
  · exact (MemLib.sbrk_of_refuse hc).2

/-- `mem_sbrk((intptr_t)z)` of a `size_t` `z` can succeed: the cast is not negative,
`memlib` grants its next call, and the grown heap stays inside the address space. -/
def MemLib.CanGrow (lib : MemLib) (z : Nat) : Prop :=
  z < 2 ^ 63 ∧ lib.grant lib.calls = true ∧ lib.brk + z ≤ 2 ^ 64

instance (lib : MemLib) (z : Nat) : Decidable (lib.CanGrow z) :=
  inferInstanceAs (Decidable (_ ∧ _ ∧ _))

/-- A `mem_sbrk` of a `size_t` fails exactly when the heap cannot grow by it. -/
theorem MemLib.sbrk_ok_iff {lib : MemLib} {z : Nat} (hz : z < 2 ^ 64) (hb : lib.brk ≠ sbrkFailed) :
    (lib.sbrk (toIntptr z)).1 ≠ sbrkFailed ↔ lib.CanGrow z := by
  by_cases h63 : z < 2 ^ 63
  · have ht : toIntptr z = z := if_pos h63
    by_cases hc : lib.grant lib.calls = true ∧ lib.brk + z ≤ 2 ^ 64
    · rw [(MemLib.sbrk_of_grant (by rw [ht, Int.toNat_ofNat]; exact ⟨Int.ofNat_nonneg z, hc⟩)).1]
      exact iff_of_true hb ⟨h63, hc⟩
    · rw [(MemLib.sbrk_of_refuse (by rw [ht, Int.toNat_ofNat]; exact fun h => hc h.2)).1]
      exact iff_of_false (not_not.2 rfl) fun h => hc h.2
  · have ht : toIntptr z = z - 2 ^ 64 := if_neg h63
    rw [(MemLib.sbrk_of_refuse (by rw [ht]; exact fun h => absurd h.1 (by omega))).1]
    exact iff_of_false (not_not.2 rfl) fun h => h63 h.1

/-- `lib'` is `lib` after at most `k` calls of `mem_sbrk`: the heap keeps its base and
its grant schedule, its break has not moved down, and at most `k` calls were made. -/
structure MemLib.Grown (lib lib' : MemLib) (k : Nat) : Prop where
  lo : lib'.lo = lib.lo
  grant : lib'.grant = lib.grant
  brk : lib.brk ≤ lib'.brk
  calls : lib.calls ≤ lib'.calls ∧ lib'.calls ≤ lib.calls + k

theorem MemLib.Grown.refl (lib : MemLib) : lib.Grown lib 0 := ⟨rfl, rfl, le_rfl, le_rfl, le_rfl⟩

/-- One `mem_sbrk`, granted or not, never moves the break down. -/
theorem MemLib.grown_sbrk (lib : MemLib) (incr : Int) : lib.Grown (lib.sbrk incr).2 1 := by
  refine ⟨MemLib.sbrk_lo _ _, MemLib.sbrk_grant _ _, ?_, by simp⟩
  by_cases hc : 0 ≤ incr ∧ lib.grant lib.calls = true ∧ lib.brk + incr.toNat ≤ 2 ^ 64
  · rw [(MemLib.sbrk_of_grant hc).2]
    omega
  · rw [(MemLib.sbrk_of_refuse hc).2]

theorem MemLib.Grown.trans {a b c : MemLib} {k m : Nat} (h₁ : a.Grown b k) (h₂ : b.Grown c m) :
    a.Grown c (k + m) :=
  ⟨h₂.lo.trans h₁.lo, h₂.grant.trans h₁.grant, h₁.brk.trans h₂.brk,
    h₁.calls.1.trans h₂.calls.1, by have := h₁.calls.2; have := h₂.calls.2; omega⟩

theorem MemLib.Grown.mono {a b : MemLib} {k m : Nat} (h : a.Grown b k) (hkm : k ≤ m) :
    a.Grown b m :=
  { h with calls := ⟨h.calls.1, h.calls.2.trans (Nat.add_le_add_left hkm _)⟩ }

/-- `mem_sbrk(incr)`. -/
def memSbrk (s : State) (incr : Int) : Nat × State :=
  ((s.lib.sbrk incr).1, { s with lib := (s.lib.sbrk incr).2 })

/-- `mem_heap_lo()`. -/
def memHeapLo (s : State) : Nat := s.lib.lo

/-- `mem_heap_hi()`. -/
def memHeapHi (s : State) : Nat := s.lib.brk - 1

def State.setWord (s : State) (a v : Nat) : State := { s with mem := writeWord s.mem a v }

@[simp] theorem State.setWord_mem (s : State) (a v : Nat) :
    (s.setWord a v).mem = writeWord s.mem a v := rfl
@[simp] theorem State.setWord_lib (s : State) (a v : Nat) : (s.setWord a v).lib = s.lib := rfl
@[simp] theorem State.setWord_heapStart (s : State) (a v : Nat) :
    (s.setWord a v).heapStart = s.heapStart := rfl
@[simp] theorem State.setWord_segList (s : State) (a v : Nat) :
    (s.setWord a v).segList = s.segList := rfl
@[simp] theorem State.setWord_miniList (s : State) (a v : Nat) :
    (s.setWord a v).miniList = s.miniList := rfl

/-- `get_size(block)`. -/
def getSize (s : State) (block : Nat) : Nat := extractSize (readWord s.mem block)

/-- `get_alloc(block)`. -/
def getAlloc (s : State) (block : Nat) : Bool := extractAlloc (readWord s.mem block)

/-- `get_prev_alloc(block)`. -/
def getPrevAlloc (s : State) (block : Nat) : Bool := extractPrevAlloc (readWord s.mem block)

/-- `get_prev_mini(block)`. -/
def getPrevMini (s : State) (block : Nat) : Bool := extractPrevMini (readWord s.mem block)

/-- `is_mini_block(block)`. -/
def isMiniBlock (s : State) (block : Nat) : Bool := getSize s block == minBlockSize

/-- `payload_to_header(bp)`. -/
def payloadToHeader (bp : Nat) : Nat := bp - wsize

/-- `header_to_payload(block)`. -/
def headerToPayload (block : Nat) : Nat := block + wsize

@[simp] theorem payloadToHeader_headerToPayload (block : Nat) :
    payloadToHeader (headerToPayload block) = block := by
  simp [payloadToHeader, headerToPayload]

/-- `header_to_footer(block)`. -/
def headerToFooter (s : State) (block : Nat) : Nat := block + wsize + getSize s block - dsize

/-- `footer_to_header(footer)`. -/
def footerToHeader (s : State) (footer : Nat) : Nat :=
  footer + wsize - extractSize (readWord s.mem footer)

/-- `find_next(block)`. -/
def findNext (s : State) (block : Nat) : Nat := block + getSize s block

/-- `find_prev_footer(block)`. -/
def findPrevFooter (block : Nat) : Nat := block - wsize

/-- `find_prev(block)`. -/
def findPrev (s : State) (block : Nat) : Nat :=
  if !getPrevMini s block then
    let footerp := findPrevFooter block
    if extractSize (readWord s.mem footerp) = 0 then 0 else footerToHeader s footerp
  else block - minBlockSize

/-- `write_pack(block, size, alloc, prev_alloc, prev_mini)`. -/
def writePack (s : State) (block size : Nat) (alloc prevAlloc prevMini : Bool) : State :=
  let s := s.setWord block (packAll size alloc prevAlloc prevMini)
  if !alloc && !(size == minBlockSize) then
    s.setWord (headerToFooter s block) (packAll size alloc prevAlloc prevMini)
  else s

/-- `write_prev_alloc(block, prev_alloc)`: it only ever sets the flag. -/
def writePrevAlloc (s : State) (block : Nat) (prevAlloc : Bool) : State :=
  let s := if prevAlloc then s.setWord block (readWord s.mem block ||| prevAllocMask) else s
  if !getAlloc s block && !isMiniBlock s block then
    let footer := headerToFooter s block
    if prevAlloc then s.setWord footer (readWord s.mem footer ||| prevAllocMask) else s
  else s

/-- `write_epilogue(block, prev_alloc, prev_mini)`. -/
def writeEpilogue (s : State) (block : Nat) (prevAlloc prevMini : Bool) : State :=
  s.setWord block (packAll 0 true prevAlloc prevMini)

/-- `write_prev_alloc(block, false)` writes nothing. -/
@[simp] theorem writePrevAlloc_false (s : State) (block : Nat) : writePrevAlloc s block false = s := by
  simp only [writePrevAlloc, Bool.false_eq_true, ↓reduceIte]
  split <;> rfl

@[simp] theorem writePack_lib (s : State) (b z : Nat) (a pa pm : Bool) :
    (writePack s b z a pa pm).lib = s.lib := by
  unfold writePack; split <;> rfl

@[simp] theorem writePack_heapStart (s : State) (b z : Nat) (a pa pm : Bool) :
    (writePack s b z a pa pm).heapStart = s.heapStart := by
  unfold writePack; split <;> rfl

@[simp] theorem writePack_segList (s : State) (b z : Nat) (a pa pm : Bool) :
    (writePack s b z a pa pm).segList = s.segList := by
  unfold writePack; split <;> rfl

@[simp] theorem writePack_miniList (s : State) (b z : Nat) (a pa pm : Bool) :
    (writePack s b z a pa pm).miniList = s.miniList := by
  unfold writePack; split <;> rfl

end SegAlloc.Model
