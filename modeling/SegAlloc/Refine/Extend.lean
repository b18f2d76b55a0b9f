import SegAlloc.Refine.Coalesce
import SegAlloc.View.Malloc

/-!
# `extend_heap` refines `extend`

A granted `mem_sbrk` moves the break; `extend_heap` then writes the header and
footer of the new block over the old epilogue and a new epilogue after it. Every
word the representation reads, but the old epilogue's header, lies below the old
epilogue, and every write lies at or above it (`Rep.grow`), so the grown heap is
represented and `coalesce_block` finishes the work (`extendHeap_rep`). A refused
`mem_sbrk` changes only the `memlib` side (`Rep.withLib`).
-/

namespace SegAlloc.Refine

open SegAlloc.Machine SegAlloc.Model SegAlloc.View

section Grow

variable {s : State} {H : Heap} (hR : Rep s H)
include hR

/-- The representation reads the heap bounds only through `lo` and `brk`. -/
theorem Rep.withLib {lib : MemLib} (hlo : lib.lo = H.lib.lo) (hbrk : lib.brk = H.lib.brk) :
    Rep { s with lib := lib } { H with lib := lib } :=
  { hR with
    lib := rfl
    start := hlo ▸ hR.start
    lo := hlo ▸ hR.lo
    lo_pos := hlo ▸ hR.lo_pos
    brk := hbrk ▸ hR.brk
    layout := hR.layout.of_bounds rfl hlo hbrk
    hdrs := ⟨show readWord s.mem lib.lo = _ by rw [hlo]; exact hR.hdrs.1, hR.hdrs.2⟩ }

variable (hW : WF H) {real : List Blk} {epi : Blk} (hbl : H.blocks = real ++ [epi])
include hW hbl

/-- The grown heap is represented by a memory that keeps every byte below the old
epilogue and holds the headers of the new block and the new epilogue. -/
theorem Rep.grow {z : Nat} (h16 : 16 ≤ z) (hmod : z % 16 = 0) {lib : MemLib}
    (hlo : lib.lo = H.lib.lo) (hbrk : lib.brk = H.lib.brk + z) (hle : lib.brk ≤ 2 ^ 64) {m : Mem}
    (hfr : Frame s.mem m fun x => epi.addr ≤ x)
    (hE : HdrOk m ⟨epi.addr, z, false, epi.prevAlloc, epi.prevMini⟩)
    (hN : HdrOk m ⟨epi.addr + z, 0, true, false, z == minBlockSize⟩) :
    Rep { s with mem := m, lib := lib } (H.grow lib real epi z) := by
  obtain ⟨real', epi', he, hs, -, ha, -⟩ := hR.layout
  obtain ⟨rfl, he'⟩ := List.append_inj' (hbl.symm.trans he) rfl
  obtain rfl := List.singleton_inj.1 he'
  -- what the representation reads of a free block lies below the epilogue
  have hbelow : ∀ Y ∈ H.blocks, Y.alloc = false → Y.addr + Y.size ≤ epi.addr := fun Y hY hYf => by
    rw [hbl, List.mem_append, List.mem_singleton] at hY
    rcases hY with hY | rfl
    · exact ((Seg.bounds hs).2 Y hY).2.1
    · rw [ha] at hYf; cases hYf
  have hkeep : ∀ a, a + 8 ≤ epi.addr → readWord m a = readWord s.mem a :=
    fun a ha => readWord_frame hfr fun i hi h => by omega
  have hL := hW.lists
  refine
    { lib := rfl
      start := hlo ▸ hR.start
      lo := hlo ▸ hR.lo
      lo_pos := hlo ▸ hR.lo_pos
      brk := hle
      layout := (hW.grow hbl h16 hmod hlo hbrk).layout
      hdrs := ⟨?_, fun b hb => ?_⟩
      miniHead := hR.miniHead
      miniLinks := hR.miniLinks.transport fun x hx => ?_
      segHead := hR.segHead
      segLinks := fun i hi => (hR.segLinks i hi).transport (fun x hx => ?_) fun y hy => ?_ }
  · show readWord m lib.lo = _
    rw [hlo, hkeep _ (by have := (Seg.bounds hs).1; omega)]
    exact hR.hdrs.1
  · simp only [Heap.grow, List.mem_append, List.mem_cons, List.not_mem_nil, or_false] at hb
    rcases hb with hb | rfl | rfl
    · have hbH : b ∈ H.blocks := by simp [hbl, hb]
      have hb16 := ((Seg.bounds hs).2 b hb)
      refine ⟨(hkeep _ (by omega)).trans (hR.hdrs.2 b hbH).1, fun hf => ?_⟩
      rw [hkeep _ (by simp only [Blk.footer]; omega)]
      exact (hR.hdrs.2 b hbH).2 hf
    · exact hE
    · exact hN
  · obtain ⟨Y, hY, rfl, hYf, hYs⟩ := hL.mini x hx
    have := hbelow Y hY hYf
    simp only [minBlockSize, dsize, wsize] at hYs
    exact hkeep _ (by simp only [miniNextField]; omega)
  · obtain ⟨Y, hY, rfl, hYf, h32, -⟩ := hL.seg_blk hW.layout hx
    have := hbelow Y hY hYf
    exact hkeep _ (by simp only [nextField]; omega)
  · obtain ⟨Y, hY, rfl, hYf, h32, -⟩ := hL.seg_blk hW.layout (List.mem_of_mem_tail hy)
    have := hbelow Y hY hYf
    exact hkeep _ (by simp only [prevField]; omega)

end Grow

/-- `extend_heap` refines `extend`. For a size that is a multiple of 16, at least 16
and a word, `extend_heap` returns the abstract result, holds the abstract heap, and writes
no byte of an allocated payload. -/
theorem extendHeap_rep {s : State} {H : Heap} (hR : Rep s H) (hW : WF H) {z : Nat}
    (h16 : 16 ≤ z) (hmod : z % 16 = 0) (hlt : z < 2 ^ 64) :
    ∃ s', extendHeap s z = some ((View.extend H z).1, s') ∧ Rep s' (View.extend H z).2 ∧
      Frame s.mem s'.mem (fun x => ¬InPayload H.blocks x) := by
  have hz : roundUp z dsize = z := roundUp_of_mod hmod hlt
  obtain ⟨real, epi, hbl, hseg, h0, ha, hbrk⟩ := hR.layout.blocks_eq
  have hepi : epi ∈ H.blocks := by simp [hbl]
  have hepi8 := hR.layout.addr_mod hR.lo hepi
  unfold extendHeap
  simp only [hz, memSbrk, hR.lib]
  by_cases hok : (H.lib.sbrk (toIntptr z)).1 = sbrkFailed
  · rw [if_pos hok, extend_of_fail (hz.symm ▸ hok), hz]
    exact ⟨_, rfl, hR.withLib (MemLib.sbrk_lo _ _)
      (MemLib.sbrk_failed_brk (by unfold sbrkFailed; omega) hok), Frame.refl _ _⟩
  obtain ⟨hbp, hgrow, hle⟩ := MemLib.sbrk_granted hlt hok
  rw [if_neg hok, extend_of_grant hbl (hz.symm ▸ hok), hz, hbp]
  have hblock : payloadToHeader H.lib.brk = epi.addr := by
    simp only [payloadToHeader, wsize]; omega
  have hlo' : (H.lib.sbrk (toIntptr z)).2.lo = H.lib.lo := MemLib.sbrk_lo _ _
  generalize (H.lib.sbrk (toIntptr z)).2 = lib at hgrow hle hlo' ⊢
  set E : Blk := ⟨epi.addr, z, false, epi.prevAlloc, epi.prevMini⟩
  set N : Blk := ⟨epi.addr + z, 0, true, false, z == minBlockSize⟩
  have hEmod : E.size % 16 = 0 := hmod
  have hElt : E.size < 2 ^ 64 := hlt
  have hEfs : E.hasFooter = true → 16 ≤ E.size := fun _ => h16
  -- the header and footer of the new block
  have e₁ : writePack { s with lib := lib } epi.addr z false
      (getPrevAlloc { s with lib := lib } epi.addr) (getPrevMini { s with lib := lib } epi.addr) =
      writePack { s with lib := lib } E.addr E.size E.alloc E.prevAlloc E.prevMini := by
    rw [show getPrevAlloc { s with lib := lib } epi.addr = epi.prevAlloc from getPrevAlloc_eq hR hepi,
      show getPrevMini { s with lib := lib } epi.addr = epi.prevMini from getPrevMini_eq hR hepi]
  rw [hblock, e₁]
  set s₂ := writePack { s with lib := lib } E.addr E.size E.alloc E.prevAlloc E.prevMini
  have hE₂ : HdrOk s₂.mem E := writePack_hdrOk _ hEmod hElt hEfs
  have hread : readWord s₂.mem epi.addr = E.header := hE₂.1
  have hn : findNext s₂ epi.addr = N.addr := by
    rw [findNext, getSize, hread, Blk.header, extractSize_packAll _ _ _ hEmod hElt]
  have hga : getAlloc s₂ epi.addr = false := by
    rw [getAlloc, hread, Blk.header, extractAlloc_packAll _ _ _ hEmod]
  have hgm : isMiniBlock s₂ epi.addr = (z == minBlockSize) := by
    rw [isMiniBlock, getSize, hread, Blk.header, extractSize_packAll _ _ _ hEmod hElt]
  -- the new epilogue
  rw [hn, hga, hgm]
  set s₃ := writeEpilogue s₂ N.addr false (z == minBlockSize)
  have hN₃ : HdrOk s₃.mem N := ⟨readWord_writeWord_of_lt (packAll_lt _ _ _ (Nat.zero_mod _)
    (Nat.two_pow_pos 64)), fun h => by simp [Blk.hasFooter, N] at h⟩
  have hE₃ : HdrOk s₃.mem E := by
    refine ⟨?_, fun hf => ?_⟩
    · rw [show s₃.mem = writeWord s₂.mem N.addr _ from rfl,
        readWord_write_disj (by unfold Disj; simp only [N, E]; omega)]
      exact hE₂.1
    · rw [show s₃.mem = writeWord s₂.mem N.addr _ from rfl,
        readWord_write_disj (by unfold Disj Blk.footer; simp only [N, E]; omega)]
      exact hE₂.2 hf
  have hfr₃ : Frame s.mem s₃.mem fun x => epi.addr ≤ x :=
    ((writePack_frame { s with lib := lib } hEmod hElt hEfs).trans
      (frame_writeWord _ _ _)).mono fun x h => by
      rcases h with (h | ⟨-, h⟩) | h <;> simp only [E, N, Blk.footer] at h <;> omega
  have hR₃ : Rep s₃ (H.grow lib real epi z) := by
    rw [State.eq_with_mem s₃ { s with lib := lib } (by simp [s₃, s₂, writeEpilogue])
      (by simp [s₃, s₂, writeEpilogue]) (by simp [s₃, s₂, writeEpilogue])
      (by simp [s₃, s₂, writeEpilogue])]
    exact hR.grow hW hbl h16 hmod hlo' hgrow (hgrow ▸ hle) hfr₃ hE₃ hN₃
  -- coalescing
  obtain ⟨s₄, hco, hR₄, hfr₄⟩ := coalesceBlock_rep hR₃ (hW.grow hbl h16 hmod hlo' hgrow)
  -- payloads lie below the old epilogue, and the grown heap keeps them
  have hnot : ∀ x, epi.addr ≤ x → ¬InPayload H.blocks x := fun x hx ⟨b, hb, hba, h1, h2⟩ => by
    rw [hbl, List.mem_append, List.mem_singleton] at hb
    rcases hb with hb | rfl
    · have := ((Seg.bounds hseg).2 b hb).2.1; omega
    · omega
  have hpay : ∀ x, InPayload H.blocks x → InPayload (H.grow lib real epi z).blocks x :=
    fun x ⟨b, hb, hba, h1, h2⟩ => by
      rw [hbl, List.mem_append, List.mem_singleton] at hb
      rcases hb with hb | rfl
      · exact ⟨b, by simp [Heap.grow, hb], hba, h1, h2⟩
      · omega
  exact ⟨s₄, hco, hR₄, (hfr₃.mono hnot).comp (hfr₄.payload hpay)⟩

/-- The break of a represented heap is a multiple of 16, never `(void *)-1`. -/
theorem Rep.brk_ne_failed {s : State} {H : Heap} (hR : Rep s H) : s.lib.brk ≠ sbrkFailed := by
  obtain ⟨real, epi, hbl, -, -, -, hbrk⟩ := hR.layout.blocks_eq
  have := hR.layout.addr_mod hR.lo (show epi ∈ H.blocks by simp [hbl])
  rw [hR.lib, sbrkFailed]
  omega

/-- `extend_heap` fails before its first write. A `NULL` result means `mem_sbrk`
refused: the state is the old one with `memlib` as `mem_sbrk` left it, which keeps the
heap bounds. -/
theorem extendHeap_null {s s' : State} {H : Heap} (hR : Rep s H) (hW : WF H) {z : Nat}
    (h16 : 16 ≤ z) (hmod : z % 16 = 0) (hlt : z < 2 ^ 64) (h : extendHeap s z = some (0, s')) :
    s' = { s with lib := (s.lib.sbrk (toIntptr z)).2 } ∧ s'.lib.lo = s.lib.lo ∧
      s'.lib.brk = s.lib.brk := by
  have hz : roundUp z dsize = z := roundUp_of_mod hmod hlt
  by_cases hok : (s.lib.sbrk (toIntptr z)).1 = sbrkFailed
  · unfold extendHeap at h
    simp only [hz, memSbrk, hok, if_true, Option.some.injEq, Prod.mk.injEq, true_and] at h
    subst h
    exact ⟨rfl, MemLib.sbrk_lo _ _, MemLib.sbrk_failed_brk hR.brk_ne_failed hok⟩
  · obtain ⟨s'', he, -⟩ := extendHeap_rep hR hW h16 hmod hlt
    rw [he, Option.some.injEq, Prod.mk.injEq] at h
    exact absurd h.1 (extend_ne_zero hW h16 hmod hlt (hR.lib ▸ hok))

end SegAlloc.Refine
