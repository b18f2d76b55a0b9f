import SegAlloc.Refine.Coalesce
import SegAlloc.View.Malloc

/-!
# The body of `malloc` refines `place`

After the fit search, `malloc` runs `remove_free` on the block it found, re-packs
its header as allocated, sets the `prev_alloc` flag of its right neighbour
(`writePrevAlloc_alloc`: on an allocated block this is a re-pack of its header),
splits the block (`splitBlock_rep`) and coalesces the remainder (`place_rep`).
Every byte written lies in the found block or in a header or a free body, so no
allocated payload of the heap before the call changes.
-/

namespace SegAlloc.Refine

open SegAlloc.Machine SegAlloc.Model SegAlloc.View

/-- `write_prev_alloc(block, true)` on an allocated block re-packs its header with the flag
set and writes no footer. -/
theorem writePrevAlloc_alloc {s : State} {H : Heap} (hR : Rep s H) {X : Blk}
    (hX : X ∈ H.blocks) (ha : X.alloc = true) :
    writePrevAlloc s X.addr true = writePack s X.addr X.size X.alloc true X.prevMini := by
  obtain ⟨h16, hlt⟩ := hR.size_ok hX
  have hw : readWord s.mem X.addr ||| prevAllocMask = packAll X.size true true X.prevMini := by
    rw [hR.header_eq hX, Blk.header, packAll_or_prevAllocMask, ha]
  have hg : getAlloc (s.setWord X.addr (packAll X.size true true X.prevMini)) X.addr = true := by
    rw [getAlloc, State.setWord_mem, readWord_writeWord_of_lt (packAll_lt _ _ _ h16 hlt),
      extractAlloc_packAll _ _ _ h16]
  simp only [writePrevAlloc, if_true, hw, hg, writePack, ha, Bool.not_true, Bool.false_and,
    Bool.false_eq_true, if_false]

section Split

variable {s : State} {H : Heap} (hR : Rep s H) (hW : WF H) {pre post : List Blk} {B : Blk}
  (hbl : H.blocks = pre ++ B :: post) (hBa : B.alloc = true) {asize : Nat} (h16 : 16 ≤ asize)
  (hmod : asize % 16 = 0) (hle : asize ≤ B.size)
include hR hW hbl hBa h16 hmod hle

/-- `split_block` refines `split`. On an allocated block of at least `asize` bytes it
writes the header of the shrunk block and the header and footer of the remainder, all
inside the block. -/
theorem splitBlock_rep :
    ∃ s', splitBlock s B.addr asize = ((View.split H B.addr asize).1, s') ∧
      Rep s' (View.split H B.addr asize).2 ∧ Frame s.mem s'.mem (InSpans [B]) := by
  have hB : B ∈ H.blocks := by simp [hbl]
  obtain ⟨hB16, hBlt⟩ := hR.size_ok hB
  have hsub : sub64 B.size asize = B.size - asize := by unfold sub64; omega
  have hloc := hW.layout.locate hbl
  unfold splitBlock
  dsimp only
  rw [getSize_eq hR hB, getPrevAlloc_eq hR hB, getPrevMini_eq hR hB, hsub]
  by_cases hs : asize + minBlockSize ≤ B.size
  · have hs' : asize + 16 ≤ B.size := hs
    rw [split_of_le hloc hs, if_pos (by simp only [minBlockSize, dsize, wsize]; omega)]
    set A : Blk := { B with size := asize }
    set R : Blk := ⟨B.addr + asize, B.size - asize, false, true, asize == minBlockSize⟩
    have hAlt : A.size < 2 ^ 64 := by simp only [A]; omega
    have hAfs : A.hasFooter = true → 16 ≤ A.size := fun h => by
      simp [A, Blk.hasFooter, hBa] at h
    have hRmod : R.size % 16 = 0 := by simp only [R]; omega
    have hRlt : R.size < 2 ^ 64 := by simp only [R]; omega
    have hRfs : R.hasFooter = true → 16 ≤ R.size := fun _ => by simp only [R]; omega
    -- the shrunk block
    have e₁ : writePack s B.addr asize true B.prevAlloc B.prevMini =
        writePack s A.addr A.size A.alloc A.prevAlloc A.prevMini := by simp [A, hBa]
    rw [e₁]
    set s₁ := writePack s A.addr A.size A.alloc A.prevAlloc A.prevMini
    have hA₁ : HdrOk s₁.mem A := writePack_hdrOk s hmod hAlt hAfs
    have hn₁ : findNext s₁ B.addr = R.addr := by
      have : readWord s₁.mem B.addr = A.header := hA₁.1
      rw [findNext, getSize, this, Blk.header, extractSize_packAll _ _ _ hmod hAlt]
    -- the remainder
    have e₂ : writePack s₁ R.addr (B.size - asize) false true (asize == minBlockSize) =
        writePack s₁ R.addr R.size R.alloc R.prevAlloc R.prevMini := rfl
    rw [hn₁, e₂, writePrevAlloc_false]
    set s₂ := writePack s₁ R.addr R.size R.alloc R.prevAlloc R.prevMini
    have hfr₂ := writePack_frame s₁ hRmod hRlt hRfs
    have hA₂ : HdrOk s₂.mem A := by
      refine ⟨(readWord_frame hfr₂ fun i _ h => ?_).trans hA₁.1, fun h => by
        simp [A, Blk.hasFooter, hBa] at h⟩
      rcases h with h | ⟨-, h⟩ <;> simp only [A, R, Blk.footer] at h <;> omega
    have hfr : Frame s.mem s₂.mem (InSpans [B]) := by
      have hspan : B.span = B.size := Blk.span_eq (by omega)
      have hAs : A.span = asize := Nat.max_eq_left (show 8 ≤ asize by omega)
      have hRs : R.span = B.size - asize := Nat.max_eq_left (show 8 ≤ B.size - asize by omega)
      refine ((writePack_frame_span s hmod hAlt hAfs).trans
        (writePack_frame_span s₁ hRmod hRlt hRfs)).mono fun x h => ⟨B, List.mem_singleton_self _, ?_⟩
      rcases h with ⟨b, hb, h1, h2⟩ | ⟨b, hb, h1, h2⟩ <;> rw [List.mem_singleton.1 hb] at h1 h2
      · rw [hAs] at h2; simp only [A] at h1 h2; omega
      · rw [hRs] at h2; simp only [R] at h1 h2; omega
    have hsplit := hW.split hbl hBa h16 hmod hs
    have hbl' : H.blocks = pre ++ [B] ++ post := by simp [hbl]
    have hRep := hR.replace hW.lists hbl'
      (show Layout (H.withBlocks (pre ++ [A, R] ++ post)) by simpa using hsplit.layout)
      (fun b hb => by
        rw [List.mem_singleton.1 hb]; exact hW.lists.unlisted_of_alloc hW.layout hB hBa)
      hfr (by
        intro b hb
        simp only [List.mem_cons, List.mem_singleton, List.not_mem_nil, or_false] at hb
        rcases hb with rfl | rfl
        · exact hA₂
        · exact writePack_hdrOk s₁ hRmod hRlt hRfs)
    refine ⟨s₂, rfl, ?_, hfr⟩
    rw [State.eq_with_mem s₂ s (by simp [s₂, s₁]) (by simp [s₂, s₁])
      (by simp [s₂, s₁]) (by simp [s₂, s₁])]
    simpa using hRep
  · rw [split_of_lt hloc hs, if_neg (by simp only [minBlockSize, dsize, wsize] at hs ⊢; omega)]
    exact ⟨s, rfl, hR, Frame.refl _ _⟩

end Split

/-- The body of `malloc` refines `place`. On a free block of at least `asize` bytes,
`place` computes the abstract heap and writes no byte of an allocated payload. -/
theorem place_rep {s : State} {H : Heap} (hR : Rep s H) (hW : WF H) {X : Blk}
    (hX : X ∈ H.blocks) (hXf : X.alloc = false) {asize : Nat} (h16 : 16 ≤ asize)
    (hmod : asize % 16 = 0) (hle : asize ≤ X.size) :
    ∃ s', Model.place s X.addr asize = some s' ∧ Rep s' (View.place H X.addr asize) ∧
      Frame s.mem s'.mem (fun x => ¬InPayload H.blocks x) := by
  have hlay := hW.layout
  have hX16 := (hlay.free_size hX hXf).1
  obtain ⟨pre, post₀, hbl₀⟩ := List.append_of_mem hX
  obtain ⟨N, post, rfl⟩ := List.exists_cons_of_ne_nil (hlay.succ_exists hbl₀ hX16)
  have hbl : H.blocks = pre ++ X :: N :: post := hbl₀
  have hNa := hW.next_alloc hbl hXf
  have hnext : N.addr = X.addr + X.size := hlay.next_addr hbl
  set X' : Blk := { X with alloc := true }
  set N' : Blk := { N with prevAlloc := true }
  -- `remove_free`
  obtain ⟨s₁, hrm, hR₁, hfr₁⟩ := removeFree_rep hR hW.lists hX (hW.listed X hX hXf)
  have hL₁ : Lists (H.erase X.addr X.size) := hW.lists.erase _ _
  have hX₁ : X ∈ (H.erase X.addr X.size).blocks := by simp [hX]
  -- the block is marked allocated
  obtain ⟨hR₂, hL₂, hfr₂⟩ := hR₁.writePack_reheader hL₁
    (show (H.erase X.addr X.size).blocks = pre ++ X :: N :: post by simp [hbl])
    (hW.lists.unlisted_erase hlay hX) (show X'.addr = X.addr from rfl)
    (show X'.size = X.size from rfl) (.inr hX16)
  set H₂ := (H.erase X.addr X.size).withBlocks (pre ++ X' :: N :: post)
  have hN₂ : N ∈ H₂.blocks := by simp [H₂]
  -- its right neighbour learns that it is allocated
  obtain ⟨hR₃, -, hfr₃⟩ := hR₂.writePack_reheader hL₂
    (show H₂.blocks = (pre ++ [X']) ++ N :: post by simp [H₂])
    (hL₂.unlisted_of_alloc hR₂.layout hN₂ hNa) (show N'.addr = N.addr from rfl)
    (show N'.size = N.size from rfl) (.inl (show N'.alloc = N.alloc from rfl))
  have hW₃ := hW.take hbl hXf
  have hH₃ : H₂.withBlocks ((pre ++ [X']) ++ N' :: post) =
      (H.erase X.addr X.size).withBlocks (pre ++ X' :: N' :: post) := by simp [H₂]
  rw [hH₃] at hR₃ hfr₃
  -- the split
  obtain ⟨s₄, hsp, hR₄, hfr₄⟩ := splitBlock_rep hR₃ hW₃ rfl rfl h16 hmod hle
  have hpay₃ : ∀ x, InPayload H.blocks x →
      InPayload (pre ++ X' :: N' :: post) x := fun x hx => by
    rw [show H.blocks = pre ++ [X, N] ++ post by simp [hbl]] at hx
    have h : InPayload (pre ++ [X', N'] ++ post) x := InPayload.of_replace (fun b hb hba => by
      simp only [List.mem_cons, List.mem_singleton, List.not_mem_nil, or_false] at hb
      rcases hb with rfl | rfl
      · rw [hXf] at hba; cases hba
      · exact ⟨N', by simp, hba, rfl, rfl⟩) hx
    simpa using h
  have hfr₁₃ : Frame s.mem (writePack (writePack s₁ X'.addr X'.size X'.alloc X'.prevAlloc
      X'.prevMini) N'.addr N'.size N'.alloc N'.prevAlloc N'.prevMini).mem
      (fun x => ¬InPayload H.blocks x) := by
    refine (hfr₁.mono fun x h => Owned.not_payload hlay (.inr h)).comp
      ((hfr₂.mono fun x h => ?_).comp (hfr₃.mono fun x h => ?_))
    · exact fun hx => Owned.not_payload hR₂.layout h (by
        have h : InPayload ((pre ++ [X']) ++ [N] ++ post) x := by
          have := hpay₃ x hx
          rw [show pre ++ X' :: N' :: post = (pre ++ [X']) ++ [N'] ++ post by simp] at this
          exact InPayload.of_replace (fun b hb hba => ⟨N, by simp,
            by rw [List.mem_singleton.1 hb] at hba; exact hba,
            by rw [List.mem_singleton.1 hb], by rw [List.mem_singleton.1 hb]⟩) this
        simpa [H₂] using h)
    · exact fun hx => Owned.not_payload hR₃.layout h (by simpa using hpay₃ x hx)
  -- the whole body
  have hfn₂ : findNext (writePack s₁ X.addr X.size true X.prevAlloc X.prevMini) X.addr = N.addr :=
    (findNext_eq hR₂ (show X' ∈ H₂.blocks by simp [H₂])).trans hnext.symm
  have hwpa : writePrevAlloc (writePack s₁ X.addr X.size true X.prevAlloc X.prevMini) N.addr true =
      writePack (writePack s₁ X'.addr X'.size X'.alloc X'.prevAlloc X'.prevMini) N'.addr N'.size
        N'.alloc N'.prevAlloc N'.prevMini :=
    writePrevAlloc_alloc hR₂ hN₂ hNa
  simp only [Model.place, hrm, getSize_eq hR₁ hX₁, getPrevAlloc_eq hR₁ hX₁,
    getPrevMini_eq hR₁ hX₁, hfn₂, hwpa]
  rw [hsp, place_eq hlay hbl asize]
  dsimp only
  by_cases hs : (View.split ((H.erase X.addr X.size).withBlocks (pre ++ X' :: N' :: post))
    X.addr asize).1 = 0
  · simp only [hs, ne_eq, not_true_eq_false, if_false]
    refine ⟨s₄, rfl, hR₄, hfr₁₃.comp (hfr₄.mono fun x h hx => ?_)⟩
    obtain ⟨b, hb, h1, h2⟩ := h
    rw [List.mem_singleton.1 hb] at h1 h2
    exact not_payload_of_free hlay hX hXf ⟨h1, h2⟩ hx
  · -- the remainder is coalesced
    have hloc₃ := hW₃.layout.locate (show ((H.erase X.addr X.size).withBlocks
      (pre ++ X' :: N' :: post)).blocks = pre ++ X' :: N' :: post from rfl)
    have hsl : asize + minBlockSize ≤ X'.size := by
      by_contra h
      exact hs (by rw [show X.addr = X'.addr from rfl, split_of_lt hloc₃ h])
    have hsplit := hW₃.split rfl rfl h16 hmod hsl
    rw [show X.addr = X'.addr from rfl, split_of_le hloc₃ hsl] at hR₄ ⊢
    rw [show X.addr = X'.addr from rfl, split_of_le hloc₃ hsl] at hs
    obtain ⟨s₅, hco, hR₅, hfr₅⟩ := coalesceBlock_rep hR₄ hsplit
    simp only [hs, ne_eq, not_false_eq_true, if_true, hco, Option.map_some']
    refine ⟨s₅, rfl, hR₅, (hfr₁₃.comp (hfr₄.mono fun x h hx => ?_)).comp
      (hfr₅.payload fun x hx => ?_)⟩
    · obtain ⟨b, hb, h1, h2⟩ := h
      rw [List.mem_singleton.1 hb] at h1 h2
      exact not_payload_of_free hlay hX hXf ⟨h1, h2⟩ hx
    · rw [show H.blocks = pre ++ [X, N] ++ post by simp [hbl]] at hx
      have h : InPayload (pre ++ [{ X' with size := asize },
          ⟨X'.addr + asize, X'.size - asize, false, true, asize == minBlockSize⟩, N'] ++ post) x :=
        InPayload.of_replace (fun b hb hba => by
          simp only [List.mem_cons, List.mem_singleton, List.not_mem_nil, or_false] at hb
          rcases hb with rfl | rfl
          · rw [hXf] at hba; cases hba
          · exact ⟨N', by simp, hba, rfl, rfl⟩) hx
      simpa using h


end SegAlloc.Refine
