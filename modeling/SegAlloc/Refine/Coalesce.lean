import SegAlloc.Refine.Retile
import SegAlloc.View.Coalesce

/-!
# `coalesce_block` refines `coalesce`

Each case of `coalesce_block` is a sequence of three kinds of step: `remove_free`
of the absorbed neighbours (`removeFree_rep`), one `write_pack` of the merged
block over its run (`Rep.writePack_merge`), and the common end, which re-flags
the block after the run and pushes the merged block (`Rep.coalesce_finish`).
`find_prev` reaches a free left neighbour through its footer, or 16 bytes back
when the neighbour is mini (`findPrev_eq`). No step writes a byte of an
allocated payload.
-/

namespace SegAlloc.Refine

open SegAlloc.Machine SegAlloc.Model SegAlloc.View

/-- Merging a run of free blocks keeps every payload. -/
theorem InPayload.of_merge {pre run post : List Blk} (hfree : ∀ b ∈ run, b.alloc = false)
    {M : Blk} {x : Nat} (hx : InPayload (pre ++ run ++ post) x) : InPayload (pre ++ M :: post) x := by
  have h : InPayload (pre ++ [M] ++ post) x :=
    InPayload.of_replace (fun b hb hba => by rw [hfree b hb] at hba; cases hba) hx
  simpa using h

section Steps

variable {s : State} {H : Heap} (hR : Rep s H)
include hR

/-- `find_prev`. The free left neighbour `P` of `B` is found through `P`'s footer, or,
when `B`'s flags say that `P` is mini, 16 bytes back. -/
theorem findPrev_eq {pre post : List Blk} {P B : Blk} (hbl : H.blocks = pre ++ P :: B :: post)
    (hfl : FlagsOk P B) (hPf : P.alloc = false) : findPrev s B.addr = P.addr := by
  have hP : P ∈ H.blocks := by simp [hbl]
  have hnext := hR.layout.next_addr hbl
  have h16 := (hR.layout.free_size hP hPf).1
  unfold findPrev
  rw [getPrevMini_eq hR (by simp [hbl]), hfl.2]
  by_cases hm : P.size = minBlockSize
  · simp only [hm, beq_self_eq_true, Bool.not_true, Bool.false_eq_true, ↓reduceIte]
    simp only [minBlockSize, dsize, wsize] at hm ⊢
    omega
  · have hft : P.hasFooter = true := by simp [Blk.hasFooter, hPf, hm]
    obtain ⟨hs16, hlt⟩ := hR.size_ok hP
    have hsz : extractSize (readWord s.mem (findPrevFooter B.addr)) = P.size := by
      have hfoot : findPrevFooter B.addr = P.footer := by
        simp only [findPrevFooter, Blk.footer, wsize]; omega
      rw [hfoot, (hR.hdrs.2 P hP).2 hft, Blk.header, extractSize_packAll _ _ _ hs16 hlt]
    simp only [beq_false_of_ne hm, Bool.not_false, ↓reduceIte, footerToHeader, hsz]
    rw [if_neg (by omega)]
    simp only [findPrevFooter, wsize]
    omega

variable (hL : Lists H)
include hL

/-- Writing the merged block. `write_pack` of the block that a run of unlisted free
blocks merges into gives the heap with the run replaced by it. It writes the run's first
header and the merged footer only, so every other word of the run is kept. -/
theorem Rep.writePack_merge {pre rest post : List Blk} {F N : Blk}
    (hbl : H.blocks = pre ++ (F :: rest) ++ N :: post) (hfree : ∀ b ∈ F :: rest, b.alloc = false)
    (hun : ∀ b ∈ F :: rest, Unlisted H b.addr) {z : Nat} {pa pm : Bool}
    (hz : z = (F.merge rest).size) (hpa : pa = F.prevAlloc) (hpm : pm = F.prevMini) :
    Rep (writePack s F.addr z false pa pm) (H.withBlocks (pre ++ F.merge rest :: N :: post)) ∧
      Lists (H.withBlocks (pre ++ F.merge rest :: N :: post)) ∧
      Frame s.mem (writePack s F.addr z false pa pm).mem (fun x => ¬InPayload H.blocks x) ∧
      ∀ a, F.addr + 8 ≤ a → a + 8 ≤ (F.merge rest).footer →
        readWord (writePack s F.addr z false pa pm).mem a = readWord s.mem a := by
  subst hz hpa hpm
  set M := F.merge rest with hMdef
  have hMa : M.addr = F.addr := rfl
  obtain ⟨hseg, hlay⟩ := hR.layout.merge hbl
  have hM : M ∈ (H.withBlocks (pre ++ M :: N :: post)).blocks := by simp
  have hlt : M.size < 2 ^ 64 := hlay.size_lt hR.brk hM
  obtain ⟨hM16, h16⟩ := hlay.free_size hM rfl
  have hfs : M.hasFooter = true → 16 ≤ M.size := fun _ => hM16
  have hmid : ∀ b ∈ F :: rest, b ∈ H.blocks := fun b hb => by
    rw [hbl]; exact List.mem_append_left _ (List.mem_append_right _ hb)
  -- the bytes written lie in the run
  have hcover : ∀ x, InSpans [M] x → InSpans (F :: rest) x := fun x ⟨b, hb, h1, h2⟩ => by
    rw [List.mem_singleton] at hb
    subst hb
    rw [Blk.span_eq (by omega)] at h2
    have hend : F.addr + M.size = N.addr := hseg.2.2.2
    obtain ⟨c, hc, h3, h4⟩ := (hR.layout.seg_run hbl).cover x (by omega) (by omega)
    exact ⟨c, hc, h3, by have : c.size ≤ c.span := le_max_left _ _; omega⟩
  have hfr := (writePack_frame_span s h16 hlt hfs).mono hcover
  have e : pre ++ [M] ++ N :: post = pre ++ M :: N :: post := by simp
  refine ⟨?_, e ▸ hL.replace hbl hun, ?_, fun a h1 h2 => ?_⟩
  · rw [writePack_eq_mem, ← e]
    exact hR.replace hL hbl (e ▸ hlay) hun hfr (by simpa using writePack_hdrOk s h16 hlt hfs)
  · exact hfr.mono fun x ⟨b, hb, h1, h2⟩ =>
      not_payload_of_free hR.layout (hmid b hb) (hfree b hb) ⟨h1, h2⟩
  · exact readWord_frame (writePack_frame s h16 hlt hfs) fun i hi h => by
      rcases h with h | ⟨-, h⟩ <;> omega

/-- The end of every case. The block `N` after the merged block `M` is re-flagged to say
that `M` is free, and `M` is pushed on the list for its size. -/
theorem Rep.coalesce_finish {pre post : List Blk} {M N : Blk}
    (hbl : H.blocks = pre ++ M :: N :: post) (hM : M.alloc = false) (hu : Unlisted H M.addr)
    (hN : N.alloc = true) {z : Nat} {a pm : Bool} (hz : z = N.size) (ha : a = true)
    (hpm : pm = (M.size == minBlockSize)) :
    Rep (insertFree (writePack s N.addr z a false pm) M.addr)
        ((H.withBlocks (pre ++ M :: N.afterFree M :: post)).push M.addr M.size) ∧
      Frame s.mem (insertFree (writePack s N.addr z a false pm) M.addr).mem
        (fun x => ¬InPayload H.blocks x) := by
  have ha' : a = N.alloc := ha.trans hN.symm
  subst hz hpm ha'
  have hbl' : H.blocks = (pre ++ [M]) ++ N :: post := by simp [hbl]
  have hNu := hL.unlisted_of_alloc hR.layout (by simp [hbl]) hN
  obtain ⟨hR1, hL1, hfr1⟩ := hR.writePack_reheader hL hbl' hNu
    (show (N.afterFree M).addr = N.addr from rfl) (show (N.afterFree M).size = N.size from rfl)
    (.inl (show (N.afterFree M).alloc = N.alloc from rfl))
  have e : (pre ++ [M]) ++ N.afterFree M :: post = pre ++ M :: N.afterFree M :: post := by simp
  rw [e] at hR1 hL1 hfr1
  have hlay1 := hR1.layout
  obtain ⟨hR2, hfr2⟩ := insertFree_rep hR1 hL1 (by simp) hM hu
  have hpay : ∀ x, InPayload H.blocks x → InPayload (pre ++ M :: N.afterFree M :: post) x :=
    fun x hx => by
      rw [show H.blocks = (pre ++ [M]) ++ [N] ++ post by simp [hbl]] at hx
      have h : InPayload ((pre ++ [M]) ++ [N.afterFree M] ++ post) x :=
        InPayload.of_replace (fun b hb hba => by
          rw [List.mem_singleton.1 hb] at hba ⊢
          exact ⟨N.afterFree M, List.mem_singleton_self _, hba, rfl, rfl⟩) hx
      simpa using h
  exact ⟨hR2, ((hfr1.mono fun x h => Owned.not_payload hlay1 h).comp
    (hfr2.mono fun x h => Owned.not_payload hlay1 (.inr h))).payload hpay⟩

end Steps

/-- `coalesce_block` refines `coalesce`. On a state holding a heap in which only the free
block `B` is out of place, `coalesce_block(B)` returns the abstract result, holds the
abstract heap, and writes no byte of an allocated payload. -/
theorem coalesceBlock_rep {s : State} {H : Heap} {B : Blk} (hR : Rep s H) (hW : WFBut H B) :
    ∃ s', coalesceBlock s B.addr = some ((coalesce H B.addr).1, s') ∧
      Rep s' (coalesce H B.addr).2 ∧ Frame s.mem s'.mem (fun x => ¬InPayload H.blocks x) := by
  obtain ⟨pre, N, post, hbl, hflB, hfirst, hright, -⟩ := hW.around
  have hL := hW.lists
  have hlay := hR.layout
  have hB := hW.mem
  have hN : N ∈ H.blocks := by simp [hbl]
  have h16 := (hlay.free_size hB hW.free).1
  have hloc := hlay.locate hbl
  have hnext : N.addr = B.addr + B.size := hlay.next_addr hbl
  have hnd := hlay.nodup
  rw [hbl] at hnd
  have hNB : N ≠ B := fun h => (List.nodup_cons.1 (List.nodup_append.1 hnd).2.1).1
    (h ▸ List.mem_cons_self _ _)
  -- the left neighbour, when `B`'s flags say it is free
  have hleft : B.prevAlloc = false → ∃ P, H.blocks = pre.dropLast ++ P :: B :: N :: post ∧
      P ∈ H.blocks ∧ P.alloc = false ∧ P ≠ B ∧ findPrev s B.addr = P.addr ∧
      pre.getLast? = some P ∧ B.addr = P.addr + P.size := by
    intro hpa
    obtain ⟨P, hP⟩ := Option.ne_none_iff_exists'.1 fun h =>
      absurd (hfirst (List.getLast?_eq_none_iff.1 h)) (by simp [hpa])
    have hpre := (List.dropLast_append_getLast? P hP).symm
    have hblP : H.blocks = pre.dropLast ++ P :: B :: N :: post := by rw [hbl, hpre]; simp
    have hPf : P.alloc = false := (hflB P hP).1.symm.trans hpa
    refine ⟨P, hblP, by simp [hblP], hPf, fun h => ?_, findPrev_eq hR hblP (hflB P hP) hPf, hP,
      hlay.next_addr hblP⟩
    have hnd' := hlay.nodup
    rw [hblP] at hnd'
    exact (List.nodup_cons.1 (List.nodup_append.1 hnd').2.1).1 (by rw [h]; exact List.mem_cons_self _ _)
  -- the free blocks to absorb are listed
  have hlisted : ∀ X ∈ H.blocks, X.alloc = false → X ≠ B → ∃ s₁, removeFree s X.addr = some s₁ ∧
      Rep s₁ (H.erase X.addr X.size) ∧ Frame s.mem s₁.mem (fun x => ¬InPayload H.blocks x) :=
    fun X hX hXf hXB => by
      obtain ⟨s₁, h1, h2, h3⟩ := removeFree_rep hR hL hX (hW.listed X hX hXf hXB)
      exact ⟨s₁, h1, h2, h3.mono fun x h => Owned.not_payload hlay (.inr h)⟩
  simp only [coalesceBlock, getSize_eq hR hB, getPrevAlloc_eq hR hB, findNext_eq hR hB, Blk.next,
    ← hnext, getAlloc_eq hR hN, getSize_eq hR hN]
  cases hpa : B.prevAlloc <;> cases hna : N.alloc <;>
    simp only [Bool.not_false, Bool.not_true, Bool.and_true, Bool.true_and, Bool.and_false,
      Bool.false_and, ↓reduceIte, Bool.false_eq_true]
  · -- case four: `P`, `B` and `N` merge
    obtain ⟨P, hblP, hP, hPf, hPB, hfp, hPl, hpn⟩ := hleft hpa
    obtain ⟨NN, post', rfl, hNN⟩ := hright hna
    have hP16 := (hlay.free_size hP hPf).1
    have hN16 := (hlay.free_size hN hna).1
    obtain ⟨s₁, hrm₁, hR₁, hfr₁⟩ := hlisted P hP hPf hPB
    have hNl : N.addr ∈ (H.erase P.addr P.size).listFor N.size :=
      (mem_listFor_erase (by omega)).2 (hW.listed N hN hna hNB)
    obtain ⟨s₂, hrm₂, hR₂, hfr₂⟩ := removeFree_rep hR₁ (hL.erase _ _) (by simpa using hN) hNl
    set H₂ := (H.erase P.addr P.size).erase N.addr N.size
    have hL₂ : Lists H₂ := (hL.erase _ _).erase _ _
    have hbl₂ : H₂.blocks = pre.dropLast ++ (P :: [B, N]) ++ NN :: post' := by
      simp only [H₂, Heap.erase_blocks, hblP]; simp
    have hP₂ : P ∈ H₂.blocks := by simp [H₂, hP]
    have hN₂ : N ∈ H₂.blocks := by simp [H₂, hN]
    have hun : ∀ b ∈ [P, B, N], Unlisted H₂ b.addr := by
      simp only [List.mem_cons, List.mem_singleton, List.not_mem_nil, or_false, forall_eq_or_imp,
        forall_eq]
      exact ⟨(hL.unlisted_erase hlay hP).erase _ _, (hW.unlisted.erase _ _).erase _ _,
        (hL.erase _ _).unlisted_erase (hlay.of_eq (by simp) (by simp)) (by simpa using hN)⟩
    have hsz : (B.size + getSize s₂ P.addr + getSize s₂ N.addr) % 2 ^ 64 =
        (P.merge [B, N]).size := by
      have := (hR₂.layout.merge hbl₂).2.size_lt hR₂.brk
        (show P.merge [B, N] ∈ (H₂.withBlocks _).blocks by simp)
      simp only [Blk.merge, List.map_cons, List.map_nil, List.sum_cons, List.sum_nil] at this ⊢
      rw [getSize_eq hR₂ hP₂, getSize_eq hR₂ hN₂]
      omega
    obtain ⟨hR₃, hL₃, hfr₃, hkeep⟩ := hR₂.writePack_merge hL₂ hbl₂ (by simp [hPf, hW.free, hna]) hun
      hsz (getPrevAlloc_eq hR₂ hP₂) (getPrevMini_eq hR₂ hP₂)
    -- `N`'s header survives inside the merged block
    have hfn : findNext (writePack s₂ P.addr ((B.size + getSize s₂ P.addr + getSize s₂ N.addr) %
        2 ^ 64) false (getPrevAlloc s₂ P.addr) (getPrevMini s₂ P.addr)) N.addr = NN.addr := by
      have hnn : NN.addr = N.addr + N.size :=
        hlay.next_addr (show H.blocks = (pre ++ [B]) ++ N :: NN :: post' by simp [hbl])
      rw [findNext, getSize, hkeep N.addr (by omega) (by simp [Blk.merge, Blk.footer]; omega),
        ← getSize, getSize_eq hR₂ hN₂, hnn]
    have hNN₃ : NN ∈ (H₂.withBlocks (pre.dropLast ++ P.merge [B, N] :: NN :: post')).blocks := by
      simp
    simp only [hfp, hrm₁, hrm₂, hfn, getSize_eq hR₃ hNN₃, getAlloc_eq hR₃ hNN₃]
    obtain ⟨hR₄, hfr₄⟩ := hR₃.coalesce_finish hL₃
      (show (H₂.withBlocks _).blocks = pre.dropLast ++ P.merge [B, N] :: NN :: post' from rfl) rfl
      ((hL.unlisted_erase hlay hP).erase _ _) hNN rfl hNN
      (beq_min_of_big (by simp [Blk.merge]; omega)).symm
    rw [coalesce_four hloc rfl hpa hPl hna hP16 h16]
    refine ⟨_, rfl, hR₄, (hfr₁.comp (hfr₂.mono fun x h => by
      simpa using Owned.not_payload hR₁.layout (.inr h))).comp ((hfr₃.payload fun x hx => by
        simpa [H₂] using hx).comp (hfr₄.payload fun x hx => ?_))⟩
    have hx' : InPayload (pre.dropLast ++ [P, B, N] ++ NN :: post') x := by
      rw [hblP] at hx; simpa using hx
    exact InPayload.of_merge (by simp [hPf, hW.free, hna]) hx'
  · -- case two: `P` and `B` merge
    obtain ⟨P, hblP, hP, hPf, hPB, hfp, hPl, hpn⟩ := hleft hpa
    have hP16 := (hlay.free_size hP hPf).1
    obtain ⟨s₁, hrm₁, hR₁, hfr₁⟩ := hlisted P hP hPf hPB
    set H₁ := H.erase P.addr P.size
    have hbl₁ : H₁.blocks = pre.dropLast ++ (P :: [B]) ++ N :: post := by simp [H₁, hblP]
    have hP₁ : P ∈ H₁.blocks := by simp [H₁, hP]
    have hun : ∀ b ∈ [P, B], Unlisted H₁ b.addr := by
      simp only [List.mem_cons, List.mem_singleton, List.not_mem_nil, or_false, forall_eq_or_imp,
        forall_eq]
      exact ⟨hL.unlisted_erase hlay hP, hW.unlisted.erase _ _⟩
    have hsz : (B.size + getSize s₁ P.addr) % 2 ^ 64 = (P.merge [B]).size := by
      have := (hR₁.layout.merge hbl₁).2.size_lt hR₁.brk
        (show P.merge [B] ∈ (H₁.withBlocks _).blocks by simp)
      simp only [Blk.merge, List.map_cons, List.map_nil, List.sum_cons, List.sum_nil] at this ⊢
      rw [getSize_eq hR₁ hP₁]
      omega
    obtain ⟨hR₂, hL₂, hfr₂, -⟩ := hR₁.writePack_merge (hL.erase _ _) hbl₁
      (by simp [hPf, hW.free]) hun hsz (getPrevAlloc_eq hR₁ hP₁) (getPrevMini_eq hR₁ hP₁)
    simp only [hfp, hrm₁]
    obtain ⟨hR₃, hfr₃⟩ := hR₂.coalesce_finish hL₂
      (show (H₁.withBlocks _).blocks = pre.dropLast ++ P.merge [B] :: N :: post from rfl) rfl
      (hL.unlisted_erase hlay hP) hna rfl rfl (beq_min_of_big (by simp [Blk.merge]; omega)).symm
    rw [coalesce_two hloc hpa hPl hna hP16 h16]
    refine ⟨_, rfl, hR₃, hfr₁.comp ((hfr₂.payload fun x hx => by simpa [H₁] using hx).comp
      (hfr₃.payload fun x hx => ?_))⟩
    have hx' : InPayload (pre.dropLast ++ [P, B] ++ N :: post) x := by
      rw [hblP] at hx; simpa using hx
    exact InPayload.of_merge (by simp [hPf, hW.free]) hx'
  · -- case three: `B` and `N` merge
    obtain ⟨NN, post', rfl, hNN⟩ := hright hna
    have hN16 := (hlay.free_size hN hna).1
    obtain ⟨s₁, hrm₁, hR₁, hfr₁⟩ := hlisted N hN hna hNB
    set H₁ := H.erase N.addr N.size
    have hbl₁ : H₁.blocks = pre ++ (B :: [N]) ++ NN :: post' := by simp [H₁, hbl]
    have hB₁ : B ∈ H₁.blocks := by simp [H₁, hB]
    have hN₁ : N ∈ H₁.blocks := by simp [H₁, hN]
    have hun : ∀ b ∈ [B, N], Unlisted H₁ b.addr := by
      simp only [List.mem_cons, List.mem_singleton, List.not_mem_nil, or_false, forall_eq_or_imp,
        forall_eq]
      exact ⟨hW.unlisted.erase _ _, hL.unlisted_erase hlay hN⟩
    have hsz : (B.size + N.size) % 2 ^ 64 = (B.merge [N]).size := by
      have := (hR₁.layout.merge hbl₁).2.size_lt hR₁.brk
        (show B.merge [N] ∈ (H₁.withBlocks _).blocks by simp)
      simp only [Blk.merge, List.map_cons, List.map_nil, List.sum_cons, List.sum_nil] at this ⊢
      omega
    obtain ⟨hR₂, hL₂, hfr₂, hkeep⟩ := hR₁.writePack_merge (hL.erase _ _) hbl₁
      (by simp [hW.free, hna]) hun hsz hpa.symm (getPrevMini_eq hR₁ hB₁)
    -- `N`'s header survives inside the merged block
    have hfn : findNext (writePack s₁ B.addr ((B.size + N.size) % 2 ^ 64) false true
        (getPrevMini s₁ B.addr)) N.addr = NN.addr := by
      have hnn : NN.addr = N.addr + N.size :=
        hlay.next_addr (show H.blocks = (pre ++ [B]) ++ N :: NN :: post' by simp [hbl])
      rw [findNext, getSize, hkeep N.addr (by omega) (by simp [Blk.merge, Blk.footer]; omega),
        ← getSize, getSize_eq hR₁ hN₁, hnn]
    have hNN₂ : NN ∈ (H₁.withBlocks (pre ++ B.merge [N] :: NN :: post')).blocks := by simp
    simp only [hrm₁, hfn, getSize_eq hR₂ hNN₂, getAlloc_eq hR₂ hNN₂]
    obtain ⟨hR₃, hfr₃⟩ := hR₂.coalesce_finish hL₂
      (show (H₁.withBlocks _).blocks = pre ++ B.merge [N] :: NN :: post' from rfl) rfl
      (hW.unlisted.erase _ _) hNN rfl hNN (beq_min_of_big (by simp [Blk.merge]; omega)).symm
    rw [coalesce_three hloc rfl hpa hna h16 hN16]
    refine ⟨_, rfl, hR₃, hfr₁.comp ((hfr₂.payload fun x hx => by simpa [H₁] using hx).comp
      (hfr₃.payload fun x hx => ?_))⟩
    have hx' : InPayload (pre ++ [B, N] ++ NN :: post') x := by
      rw [hbl] at hx; simpa using hx
    exact InPayload.of_merge (by simp [hW.free, hna]) hx'
  · -- case one: no neighbour is free
    obtain ⟨hR₁, hfr₁⟩ := hR.coalesce_finish hL hbl hW.free hW.unlisted hna rfl rfl
      (isMiniBlock_eq hR hB)
    rw [coalesce_one hloc hpa hna]
    exact ⟨_, rfl, hR₁, hfr₁⟩

/-- `coalesce_block(B)` on a heap whose invariant fails only at the free, unlisted `B`
gives the heap `MergesRun` describes, and the invariant holds again. -/
theorem coalesceBlock_merges_run {s : State} {H : Heap} {B : Blk} (hR : Rep s H)
    (hW : WFBut H B) : ∃ r s' H', coalesceBlock s B.addr = some (r, s') ∧ Rep s' H' ∧
      MergesRun H B r H' ∧ WF H' := by
  obtain ⟨s', h1, h2, -⟩ := coalesceBlock_rep hR hW
  exact ⟨_, s', _, h1, h2, coalesce_merges hW, (coalesce_merges hW).wf hW⟩

/-- The block `extend_heap` writes over the epilogue in `mm_init`, before coalescing. -/
def grownBlock : Blk := ⟨4104, 4096, false, true, false⟩

/-- The heap at that point: the prologue at `4096`, the free, unlisted `grownBlock`, and the
epilogue at `8200`. -/
def grownHeap : Heap :=
  ⟨⟨4096, 8208, fun _ => true, 2⟩, [grownBlock, ⟨8200, 0, true, false, false⟩], [], fun _ => []⟩

/-- The state holding `grownHeap`. -/
def grownState : State :=
  ⟨writeWord (writeWord (writeWord (writeWord (fun _ => 0) 4096 (packAll 0 true false false))
    4104 grownBlock.header) 8192 grownBlock.header) 8200 (packAll 0 true false false),
    grownHeap.lib, 4104, fun _ => 0, 0⟩

theorem grown_layout : Layout grownHeap :=
  ⟨[grownBlock], _, rfl, ⟨rfl, by decide, by decide, rfl⟩, rfl, rfl, rfl⟩

theorem coalesceBlock_merges_run_grown : Rep grownState grownHeap ∧ WFBut grownHeap grownBlock ∧
    ∃ r s' H', coalesceBlock grownState grownBlock.addr = some (r, s') ∧ Rep s' H' ∧
      MergesRun grownHeap grownBlock r H' ∧ WF H' := by
  have hR : Rep grownState grownHeap :=
    { lib := rfl, start := rfl, lo := by decide, lo_pos := by decide, brk := by decide
      layout := grown_layout
      hdrs := by unfold Hdrs HdrOk; decide
      miniHead := rfl, miniLinks := trivial
      segHead := fun _ _ => rfl, segLinks := fun _ _ => trivial }
  have hW : WFBut grownHeap grownBlock :=
    { layout := grown_layout
      lists := ⟨List.nodup_nil, fun _ => List.nodup_nil, fun _ h => absurd h (List.not_mem_nil _),
        fun _ _ h => absurd h (List.not_mem_nil _)⟩
      mem := List.mem_cons_self _ _
      free := rfl
      unlisted := ⟨List.not_mem_nil _, fun _ => List.not_mem_nil _⟩
      first := fun b hb => by cases hb; exact ⟨rfl, rfl⟩
      flags := List.chain'_pair.2 fun h => absurd rfl h
      apart := List.chain'_pair.2 (.inl rfl)
      listed := fun b hb hf hne => by
        rcases List.mem_pair.1 hb with rfl | rfl
        · exact absurd rfl hne
        · cases hf }
  exact ⟨hR, hW, coalesceBlock_merges_run hR hW⟩
end SegAlloc.Refine
