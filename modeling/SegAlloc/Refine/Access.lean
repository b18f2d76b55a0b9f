import SegAlloc.Refine.Rep

/-!
# Reads of a represented heap

The getters of `mm.c` applied to a block of a represented heap return the
block's fields (`getSize_eq`, `getAlloc_eq`, ...).
-/

namespace SegAlloc.Refine

open SegAlloc.Machine SegAlloc.Model SegAlloc.View

section Reads

variable {s : State} {H : Heap} (hR : Rep s H) {X : Blk} (hX : X ∈ H.blocks)
include hR hX

/-- The size of a block fits a word and is a multiple of 16. -/
theorem Rep.size_ok : X.size % 16 = 0 ∧ X.size < 2 ^ 64 := by
  have hm := hR.layout.mem hX
  have := hR.brk
  have hs : X.size ≤ X.span := le_max_left _ _
  refine ⟨by rcases hm.2.2 with ⟨h, _⟩ | ⟨_, h⟩ <;> omega, by omega⟩

theorem Rep.header_eq : readWord s.mem X.addr = X.header := (hR.hdrs.2 X hX).1

theorem getSize_eq : getSize s X.addr = X.size := by
  rw [getSize, hR.header_eq hX, Blk.header, extractSize_packAll _ _ _ (hR.size_ok hX).1
    (hR.size_ok hX).2]

theorem getAlloc_eq : getAlloc s X.addr = X.alloc := by
  rw [getAlloc, hR.header_eq hX, Blk.header, extractAlloc_packAll _ _ _ (hR.size_ok hX).1]

theorem getPrevAlloc_eq : getPrevAlloc s X.addr = X.prevAlloc := by
  rw [getPrevAlloc, hR.header_eq hX, Blk.header, extractPrevAlloc_packAll _ _ _ (hR.size_ok hX).1]

theorem getPrevMini_eq : getPrevMini s X.addr = X.prevMini := by
  rw [getPrevMini, hR.header_eq hX, Blk.header, extractPrevMini_packAll _ _ _ (hR.size_ok hX).1]

theorem isMiniBlock_eq : isMiniBlock s X.addr = (X.size == minBlockSize) := by
  rw [isMiniBlock, getSize_eq hR hX]

theorem findNext_eq : findNext s X.addr = X.next := by
  rw [findNext, getSize_eq hR hX, Blk.next]

end Reads

/-- A block's address is 8 more than a multiple of 16, and the block lies in the heap. -/
theorem Rep.addr_facts {s : State} {H : Heap} (hR : Rep s H) {X : Blk} (hX : X ∈ H.blocks) :
    X.addr % 16 = 8 ∧ H.lib.lo + 8 ≤ X.addr ∧ X.addr + X.span ≤ H.lib.brk :=
  ⟨hR.layout.addr_mod hR.lo hX, (hR.layout.mem hX).1, by have := (hR.layout.mem hX).2.1; omega⟩

end SegAlloc.Refine
