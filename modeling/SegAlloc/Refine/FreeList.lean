import SegAlloc.Refine.Access
import SegAlloc.Refine.ListState

/-!
# `insert_free` and `remove_free` on a represented heap

The lists of a represented heap are a list state (`Rep.listState`): its blocks are
disjoint, so the link words of its nodes are apart. `insert_free` and `remove_free` keep
the list state and write only link words (`ListState.insertFree`, `ListState.removeFree`),
which lie in free bodies before the footers, where no header or footer is
(`inLinks_body`). So `insert_free` pushes a free block on the list its size selects and
`remove_free` deletes a listed block from it, as `Heap.push` and `Heap.erase` say, and
both keep the representation (`insertFree_rep`, `removeFree_rep`).
-/

namespace SegAlloc.Refine

open SegAlloc.Machine SegAlloc.Model SegAlloc.View

/-- Listed addresses are block addresses, so they fit a word and are not `NULL`. -/
theorem Rep.listed_bounds {s : State} {H : Heap} (hR : Rep s H) (hL : Lists H) {x : Nat}
    (hx : x ∈ H.mini ∨ ∃ i, x ∈ H.seg i) : 0 < x ∧ x + 16 ≤ H.lib.brk := by
  obtain ⟨b, hb, rfl, hf⟩ : ∃ b ∈ H.blocks, b.addr = x ∧ b.alloc = false := by
    rcases hx with hx | ⟨i, hx⟩
    · obtain ⟨b, hb, h1, h2, -⟩ := hL.mini x hx; exact ⟨b, hb, h1, h2⟩
    · obtain ⟨b, hb, h1, h2, -⟩ := hL.seg i x hx; exact ⟨b, hb, h1, h2⟩
  have hbb := hR.addr_facts hb
  have hsz := hR.layout.free_size hb hf
  have := hR.lo_pos
  rw [Blk.span_eq (by omega)] at hbb
  omega

section Links

variable {H : Heap} (hlay : Layout H)
include hlay

/-- The link words of a free block end inside it, before its footer. -/
theorem free_linkEnd {X : Blk} (hX : X ∈ H.blocks) (hf : X.alloc = false) :
    linkEnd (X.size == minBlockSize) X.addr ≤ X.addr + X.size ∧ X.span = X.size ∧
      (X.hasFooter = true → linkEnd (X.size == minBlockSize) X.addr ≤ X.footer) := by
  obtain ⟨h16, hmod⟩ := hlay.free_size hX hf
  refine ⟨?_, Blk.span_eq (by omega), fun hft => ?_⟩
  · by_cases hm : X.size = minBlockSize
    · simp only [linkEnd, hm, beq_self_eq_true, ↓reduceIte]
      simp only [minBlockSize, dsize, wsize] at hm ⊢
      omega
    · simp only [linkEnd, beq_iff_eq, hm, ↓reduceIte]
      simp only [minBlockSize, dsize, wsize] at hm
      omega
  · have hm : X.size ≠ minBlockSize := by
      simp only [Blk.hasFooter, Bool.and_eq_true, bne_iff_ne] at hft
      exact hft.2
    simp only [linkEnd, beq_iff_eq, hm, ↓reduceIte, Blk.footer]
    simp only [minBlockSize, dsize, wsize] at hm
    omega

/-- A listed node is a free block whose size tells the kind of its list. -/
theorem listed_blk (hL : Lists H) {x : Nat} (hx : Listed H x) :
    ∃ X ∈ H.blocks, X.addr = x ∧ X.alloc = false ∧
      decide (x ∈ H.mini) = (X.size == minBlockSize) := by
  rcases hx with hx | ⟨i, -, hx⟩
  · obtain ⟨X, hX, rfl, hf, hs⟩ := hL.mini x hx
    exact ⟨X, hX, rfl, hf, by simp [hx, hs]⟩
  · obtain ⟨X, hX, rfl, hf, hs, -⟩ := hL.seg i x hx
    exact ⟨X, hX, rfl, hf, by simp [hL.not_mini_of_seg hlay hx, hs]⟩

/-- The link bytes of the nodes lie in free bodies, before the footers. -/
theorem inLinks_body (hL : Lists H) {a : Nat} (ha : InLinks H a) : InFreeBody H a := by
  obtain ⟨x, hx, h1, h2⟩ := ha
  obtain ⟨X, hX, rfl, hf, hk⟩ := listed_blk hlay hL hx
  obtain ⟨he, -, hft⟩ := free_linkEnd hlay hX hf
  rw [hk] at h2
  exact ⟨X, hX, hf, h1, by omega, fun h => by have := hft h; omega⟩

end Links

/-- A represented heap holds its lists. The lists of a heap that `s` represents are a
list state of `s`: its blocks are disjoint, so their link words are apart. -/
theorem Rep.listState {s : State} {H : Heap} (hR : Rep s H) (hL : Lists H) : ListState s H where
  miniHead := hR.miniHead
  miniLinks := hR.miniLinks
  segHead := hR.segHead
  segLinks := hR.segLinks
  miniNodup := hL.miniNodup
  segNodup := fun i _ => hL.segNodup i
  miniSeg := fun _ hx _ _ hs => hL.not_mini_of_seg hR.layout hs hx
  segSeg := fun _ _ _ _ _ hi hj => hL.seg_class hR.layout hi hj
  pos := fun _ hx => (hR.listed_bounds hL (hx.imp_right fun ⟨i, _, h⟩ => ⟨i, h⟩)).1
  lt_brk := fun _ hx => by
    have := (hR.listed_bounds hL (hx.imp_right fun ⟨i, _, h⟩ => ⟨i, h⟩)).2
    rw [hR.lib]
    omega
  brk := hR.lib ▸ hR.brk
  apart := fun _ _ hx hy hne => by
    obtain ⟨X, hX, rfl, hXf, hXk⟩ := listed_blk hR.layout hL hx
    obtain ⟨Y, hY, rfl, hYf, hYk⟩ := listed_blk hR.layout hL hy
    obtain ⟨hXe, hXs, -⟩ := free_linkEnd hR.layout hX hXf
    obtain ⟨hYe, hYs, -⟩ := free_linkEnd hR.layout hY hYf
    have := hR.layout.sep hX hY hne
    unfold LinksApart
    rw [hXk, hYk]
    omega

/-- The lists carry over. A state with the list state of `H'`, the bounds of `s`, and
the bytes of `s` outside free bodies represents `H'` when `H'` has the blocks and the bounds
of a heap `s` represents. -/
theorem Rep.of_listState {s s' : State} {H H' : Heap} (hR : Rep s H) (hS : ListState s' H')
    (hfr : Frame s.mem s'.mem (InFreeBody H)) (hbl : H'.blocks = H.blocks) (hlib : H'.lib = H.lib)
    (hb : s'.lib = s.lib ∧ s'.heapStart = s.heapStart) : Rep s' H' := by
  have hh := hR.hdrs.of_frame hR.layout hfr
  unfold Hdrs at hh
  rw [← hbl, ← hlib] at hh
  exact { lib := hb.1.trans (hR.lib.trans hlib.symm)
          start := by rw [hb.2, hR.start, hlib]
          lo := by rw [hlib]; exact hR.lo
          lo_pos := by rw [hlib]; exact hR.lo_pos
          brk := by rw [hlib]; exact hR.brk
          layout := hR.layout.of_eq hbl hlib
          hdrs := hh
          miniHead := hS.miniHead
          miniLinks := hS.miniLinks
          segHead := hS.segHead
          segLinks := hS.segLinks }

section Ops

variable {s : State} {H : Heap} (hR : Rep s H) (hL : Lists H)
include hR hL

/-- `insert_free` pushes. Inserting a free block of the heap that is on no list gives
the heap with the block pushed on the list its size selects; only link words inside free
blocks change. -/
theorem insertFree_rep {B : Blk} (hB : B ∈ H.blocks) (hf : B.alloc = false)
    (hu : Unlisted H B.addr) :
    Rep (insertFree s B.addr) (H.push B.addr B.size) ∧
      Frame s.mem (insertFree s B.addr).mem (InFree H) := by
  have hk := isMiniBlock_eq hR hB
  have hu' : ¬Listed H B.addr := fun h => h.elim hu.1 fun ⟨i, _, hi⟩ => hu.2 i hi
  obtain ⟨he, hspan, hft⟩ := free_linkEnd hR.layout hB hf
  have hBb := hR.addr_facts hB
  have h16 := (hR.layout.free_size hB hf).1
  -- the link words of `B` are apart from every node's
  have hap : ∀ y, Listed H y →
      LinksApart (isMiniBlock s B.addr) B.addr (decide (y ∈ H.mini)) y := fun y hy => by
      obtain ⟨Y, hY, rfl, hYf, hYk⟩ := listed_blk hR.layout hL hy
      obtain ⟨hYe, hYs, -⟩ := free_linkEnd hR.layout hY hYf
      have := hR.layout.sep hB hY fun h => hu' (h ▸ hy)
      unfold LinksApart
      rw [hk, hYk]
      omega
  obtain ⟨hS, hfr⟩ := (hR.listState hL).insertFree hu' (by have := hR.lo_pos; omega)
    (by rw [hR.lib]; omega) hap
  rw [getSize_eq hR hB] at hS
  have hfr' : Frame s.mem (insertFree s B.addr).mem (InFreeBody H) := hfr.mono fun a ha => by
    rcases ha with ⟨h1, h2⟩ | ha
    · rw [hk] at h2
      exact ⟨B, hB, hf, h1, by omega, fun h => by have := hft h; omega⟩
    · exact inLinks_body hR.layout hL ha
  exact ⟨hR.of_listState hS hfr' (by simp) (by simp) (insertFree_bounds s B.addr),
    hfr'.mono fun _ => InFreeBody.inFree⟩

/-- `remove_free` deletes. Removing a listed block of the heap gives the heap with the
block deleted from its list; only link words inside free blocks change. -/
theorem removeFree_rep {B : Blk} (hB : B ∈ H.blocks) (hin : B.addr ∈ H.listFor B.size) :
    ∃ s', removeFree s B.addr = some s' ∧ Rep s' (H.erase B.addr B.size) ∧
      Frame s.mem s'.mem (InFree H) := by
  rw [← getSize_eq hR hB] at hin ⊢
  obtain ⟨s', hrm, hS, hfr⟩ := (hR.listState hL).removeFree hin
  have hfr' : Frame s.mem s'.mem (InFreeBody H) := hfr.mono fun _ => inLinks_body hR.layout hL
  exact ⟨s', hrm, hR.of_listState hS hfr' (by simp) (by simp) (removeFree_bounds hrm),
    hfr'.mono fun _ => InFreeBody.inFree⟩

end Ops

end SegAlloc.Refine
