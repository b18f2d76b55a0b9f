import SegAlloc.Trace.Shape
import SegAlloc.Model.Check

/-!
# The heap checker accepts every reachable state

`mm_checkheap` is the code's own statement of its invariants: the prologue and the
epilogue, for every block on the heap walk its alignment, bounds, size, footer and that
it has no free successor when free, and for every bucket its bounds, back links and size
class. On a represented heap that keeps the invariant each check holds
(`checkBlock_of_rep`, `checkBucket_of_links`), the walks end within their fuel, and so
`mm_checkheap` returns true in every reachable state (`Reach.checkheap`): no
`dbg_requires(mm_checkheap(...))` or `dbg_ensures(mm_checkheap(...))` of the debug build
fails on any trace.

The check does not look at the mini list, nor ask that every free block be listed. Both
hold as well: the free lists hold exactly the free blocks, each on the list its size
selects (`Reach.lists_index_free`).
-/

namespace SegAlloc.Trace

open SegAlloc.Machine SegAlloc.Model SegAlloc.View SegAlloc.Refine

/-- A loop over a list whose every round returns `true` returns `true`. -/
theorem allM_some_true {α : Type} {p : α → Option Bool} :
    ∀ {l : List α}, (∀ i ∈ l, p i = some true) → l.allM p = some true
  | [], _ => rfl
  | i :: l, h => by
    simp only [List.allM, h i (List.mem_cons_self _ _), Option.bind_eq_bind, Option.some_bind,
      allM_some_true fun j hj => h j (List.mem_cons_of_mem _ hj)]

section Checks

variable {s : State} {H : Heap} (hR : Rep s H) (hW : WF H)
include hR hW

/-- Every block but the epilogue passes the five checks of `general_heap_checker`'s loop. -/
theorem checkBlock_of_rep {X : Blk} (hX : X ∈ H.blocks) (hX0 : X.size ≠ 0) :
    checkBlock s X.addr = true := by
  obtain ⟨pre, post, hbl⟩ := List.append_of_mem hX
  have h16 : 16 ≤ X.size ∧ X.size % 16 = 0 := (hR.layout.mem hX).2.2.resolve_left fun h => hX0 h.1
  obtain ⟨N, post, rfl⟩ := List.exists_cons_of_ne_nil (hR.layout.succ_exists hbl h16.1)
  have hN : N ∈ H.blocks := by simp [hbl]
  have hnext : findNext s X.addr = N.addr := by
    rw [findNext_eq hR hX, Blk.next, hR.layout.next_addr hbl]
  have hfl : FlagsOk X N := (List.chain'_cons.1 (chain'_unsplice (hbl ▸ hW.flags)).2.1).1
  obtain ⟨h8, hlo, hbrk⟩ := hR.addr_facts hX
  have hspan : X.span = X.size := Blk.span_eq (by omega)
  simp only [checkBlock, Bool.and_eq_true]
  refine ⟨⟨⟨⟨?_, ?_⟩, ?_⟩, ?_⟩, ?_⟩
  · -- alignment
    simp only [checkAlignment, headerToPayload, wsize, beq_iff_eq]
    omega
  · -- bounds
    simp only [checkBoundary, memHeapHi, memHeapLo, hR.lib]
    rw [if_neg (by omega), if_neg (by omega)]
  · -- size
    simp only [checkBlockSize, getSize_eq hR hX, minBlockSize, dsize, wsize]
    rw [if_neg (by simp only [Bool.or_eq_true, decide_eq_true_eq, bne_iff_ne, ne_eq]; omega)]
  · -- the footer of a free block that is not mini
    simp only [checkHeaderFooterMatch, hnext, getAlloc_eq hR hX, getPrevMini_eq hR hN, hfl.2]
    cases hXf : X.alloc
    · by_cases hm : X.size = minBlockSize
      · simp [hm]
      · have hft : X.hasFooter = true := by simp [Blk.hasFooter, hXf, hm]
        have hfoot : headerToFooter s X.addr = X.footer := by
          rw [headerToFooter, getSize_eq hR hX, Blk.footer, wsize, dsize, wsize]
          omega
        simp [hm, hfoot, (hR.hdrs.2 X hX).1, (hR.hdrs.2 X hX).2 hft]
    · rfl
  · -- no two free neighbours
    simp only [checkNonConsecutiveFree, hnext, getAlloc_eq hR hX, getAlloc_eq hR hN]
    cases hXf : X.alloc
    · simp [hW.next_alloc hbl hXf]
    · rfl

/-- The loop of `general_heap_checker` over a tiled stretch ending at the epilogue; each
block is at least 16 bytes, so the fuel needed is bounded by the stretch's length over 16. -/
theorem checkBlocks_seg {epi : Blk} :
    ∀ {real : List Blk} {a fuel : Nat}, Seg a real epi.addr → (∀ b ∈ real, b ∈ H.blocks) →
      epi.addr < a + 16 * fuel → checkBlocks s epi.addr fuel a = some true
  | _, _, 0, hs, _, hlen => absurd hlen (by have := (Seg.bounds hs).1; omega)
  | [], a, fuel + 1, hs, _, _ => by
    rw [seg_nil] at hs
    subst hs
    simp [checkBlocks]
  | b :: real, a, fuel + 1, hs, hb, hlen => by
    obtain ⟨rfl, h16, -, hs⟩ := hs
    have hbH := hb b (List.mem_cons_self _ _)
    have := (Seg.bounds hs).1
    rw [checkBlocks, if_neg (by omega), if_pos (checkBlock_of_rep hR hW hbH (by omega)),
      findNext_eq hR hbH, Blk.next]
    exact checkBlocks_seg hs (fun c hc => hb c (List.mem_cons_of_mem _ hc)) (by omega)

/-- `general_heap_checker` returns true. -/
theorem generalHeapChecker_eq : generalHeapChecker s = some true := by
  obtain ⟨real, epi, hbl, hs, h0, ha, hbrk⟩ := hR.layout.blocks_eq
  have hepi : epi ∈ H.blocks := by simp [hbl]
  have hhi : memHeapHi s - 7 = epi.addr := by rw [memHeapHi, hR.lib]; omega
  have hpe : checkPrologueEpilogue s = true := by
    obtain ⟨hs0, ha0⟩ := prologue_eq hR
    change (getAlloc s (memHeapLo s) && getAlloc s (memHeapHi s - 7) &&
      getSize s (memHeapLo s) == 0 && getSize s (memHeapHi s - 7) == 0) = true
    rw [hhi, getSize_eq hR hepi, getAlloc_eq hR hepi, h0, ha, hs0, ha0]
    rfl
  rw [generalHeapChecker, hpe, hhi, hR.start]
  exact checkBlocks_seg hR hW hs (fun b hb => by simp [hbl, hb])
    (by rw [loopFuel, hR.lib]; omega)

/-- The loop of `check_list` over a bucket whose links `SegLinks` describes: each node is a
block of the heap of the bucket's class, and the node after it points back. -/
theorem checkBucket_of_links {i : Nat} :
    ∀ {l : List Nat} {fuel : Nat}, SegLinks s.mem l → (∀ x ∈ l, x ∈ H.seg i) →
      l.length < fuel → checkBucket s i fuel (l.headD 0) = some true
  | _, 0, _, _, hlen => absurd hlen (Nat.not_lt_zero _)
  | [], fuel + 1, _, _, _ => by simp [checkBucket]
  | x :: l, fuel + 1, ⟨hn, hp, hl⟩, hx, hlen => by
    have hxi := hx x (List.mem_cons_self _ _)
    obtain ⟨X, hX, rfl, -, -, -, hcls⟩ := hW.lists.seg_blk hR.layout hxi
    obtain ⟨-, hlo, hbrk⟩ := hR.addr_facts hX
    have hpos := (hR.listed_bounds hW.lists (.inr ⟨i, hxi⟩)).1
    have hspan : 8 ≤ X.span := le_max_right _ _
    -- the node after `X` points back to it
    have hback : ¬(l.headD 0 ≠ 0 ∧ readWord s.mem (prevField (l.headD 0)) ≠ X.addr) := by
      rintro ⟨hne, hprev⟩
      cases l with
      | nil => exact hne rfl
      | cons y l => exact hprev (hp y rfl)
    rw [List.headD_cons, checkBucket, if_neg hpos.ne',
      if_neg (by rw [memHeapHi, hR.lib]; omega), if_neg (by rw [memHeapLo, hR.lib]; omega)]
    dsimp only
    rw [hn, if_neg hback, getSize_eq hR hX, hcls, if_neg (fun h => h rfl)]
    exact checkBucket_of_links hl (fun y hy => hx y (List.mem_cons_of_mem _ hy))
      (by rw [List.length_cons] at hlen; omega)

/-- `check_list` returns true. -/
theorem checkList_eq : checkList s = some true :=
  allM_some_true fun i hi => by
    have hi' : i < LENGTH := List.mem_range.1 hi
    rw [hR.segHead i hi']
    exact checkBucket_of_links hR hW (hR.segLinks i hi') (fun _ hx => hx)
      (hR.seg_length_lt hW.lists i)

end Checks

/-- `mm_checkheap` returns true in every reachable state, so the debug build's assertions
hold before and after every call. -/
theorem Reach.checkheap {s : State} {live : List Nat} (h : Reach s live) :
    mmCheckheap s = some true := by
  obtain ⟨H, hR, hW, -⟩ := h.inv
  rw [mmCheckheap, generalHeapChecker_eq hR hW]
  exact checkList_eq hR hW

/-- The heap check after two allocations and the free of the first. -/
theorem checkheap_replayed :
    mmCheckheap (replayed [.malloc 24, .malloc 100, .free 4112]).1 = some true :=
  Reach.checkheap (reach_replayed [.malloc 24, .malloc 100, .free 4112] (by decide)).1

/-- The free lists hold exactly the free blocks of the walk, each on the list its size
selects, and no allocated block is on any list. -/
theorem Reach.lists_index_free {s : State} {live : List Nat} (h : Reach s live) :
    ∃ bs l, heapWalk s (loopFuel s) s.heapStart = some bs ∧ miniWalk s = some l ∧
      (∀ b ∈ bs, (getAlloc s b = false → OnItsList s b) ∧ (getAlloc s b = true → OnNoList s b)) ∧
      l.Nodup ∧ (∀ x ∈ l, x ∈ bs ∧ getAlloc s x = false ∧ getSize s x = minBlockSize) ∧
      ∀ i < LENGTH, ∀ l' ∈ segWalk s i, ∀ x ∈ l', x ∈ bs := by
  obtain ⟨H, hR, hW, -⟩ := h.inv
  have hL := hW.lists
  refine ⟨_, _, heapWalk_eq hR, miniWalk_eq hR hL, fun b hb => ?_, hL.miniNodup, fun x hx => ?_,
    fun i hi l hl x hx => ?_⟩
  · obtain ⟨X, hX, rfl⟩ := List.mem_map.1 hb
    rw [getAlloc_eq hR hX]
    exact ⟨fun hf => onItsList_of_rep hR hL hX (hW.listed X hX hf),
      fun ha => onNoList_of_rep hR hL (hL.unlisted_of_alloc hW.layout hX ha)⟩
  · obtain ⟨X, hX, rfl, hXf, hXs⟩ := hL.mini x hx
    exact ⟨List.mem_map_of_mem _ hX, by rw [getAlloc_eq hR hX, hXf],
      by rw [getSize_eq hR hX, hXs]⟩
  · rw [segWalk_eq hR hL hi, Option.mem_some_iff] at hl
    subst hl
    obtain ⟨X, hX, rfl, -⟩ := hL.seg i x hx
    exact List.mem_map_of_mem _ hX

/-- The lists after a mini block between two allocations was freed. -/
theorem lists_index_free_replayed :
    let s := (replayed [.malloc 8, .malloc 24, .free 4112]).1
    ∃ bs l, heapWalk s (loopFuel s) s.heapStart = some bs ∧ miniWalk s = some l ∧
      (∀ b ∈ bs, (getAlloc s b = false → OnItsList s b) ∧ (getAlloc s b = true → OnNoList s b)) ∧
      l.Nodup ∧ (∀ x ∈ l, x ∈ bs ∧ getAlloc s x = false ∧ getSize s x = minBlockSize) ∧
      ∀ i < LENGTH, ∀ l' ∈ segWalk s i, ∀ x ∈ l', x ∈ bs :=
  Reach.lists_index_free
    (reach_replayed [.malloc 8, .malloc 24, .free 4112] (by decide)).1

end SegAlloc.Trace
