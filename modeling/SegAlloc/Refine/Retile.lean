import SegAlloc.Refine.FreeList

/-!
# Rewriting the headers of a stretch of blocks

Splitting, merging and re-flagging blocks all rewrite the headers (and
footers) inside a stretch `mid` of the block sequence, replacing it by a stretch
`mid'`. `Rep.replace` says once what such a rewrite must do: keep the layout,
write only inside the spans of `mid`, touch no listed block, and leave every
block of `mid'` with a correct header. `write_pack` is the one writer
(`writePack_blk`), and `Rep.writePack_reheader` is the re-flagging of one block.

`Owned H x` says that byte `x` is in a header word or in the body of a free
block of `H`: every byte the allocator writes is owned by the heap before or
after the write, which is how payloads are kept.
-/

namespace SegAlloc.Refine

open SegAlloc.Machine SegAlloc.Model SegAlloc.View

/-- `x` lies in a header word or in the body of a free block. -/
def Owned (H : Heap) (x : Nat) : Prop :=
  (∃ b ∈ H.blocks, b.addr ≤ x ∧ x < b.addr + 8) ∨ InFree H x

/-- `x` lies in the span of a block of `mid`. -/
def InSpans (mid : List Blk) (x : Nat) : Prop := ∃ b ∈ mid, b.addr ≤ x ∧ x < b.addr + b.span

/-- `x` lies in the payload of an allocated block of `bs`. -/
def InPayload (bs : List Blk) (x : Nat) : Prop :=
  ∃ b ∈ bs, b.alloc = true ∧ b.addr + 8 ≤ x ∧ x < b.addr + b.size

section Payload

variable {H : Heap} (hlay : Layout H)
include hlay

/-- A byte in the span of a free block is in no payload. -/
theorem not_payload_of_free {b : Blk} (hb : b ∈ H.blocks) (hf : b.alloc = false) {x : Nat}
    (hx : b.addr ≤ x ∧ x < b.addr + b.span) : ¬InPayload H.blocks x := by
  rintro ⟨c, hc, hca, h1, h2⟩
  by_cases he : b.addr = c.addr
  · rw [hlay.eq_of_addr hb hc he, hca] at hf; cases hf
  · have := hlay.sep hb hc he
    have : c.size ≤ c.span := le_max_left _ _
    omega

/-- Header words and free bodies are in no payload. -/
theorem Owned.not_payload {x : Nat} (h : Owned H x) : ¬InPayload H.blocks x := by
  rcases h with ⟨b, hb, h3, h4⟩ | ⟨b, hb, hbf, h3, h4⟩
  · rintro ⟨c, hc, hca, h1, h2⟩
    by_cases he : b.addr = c.addr
    · omega
    · have := hlay.sep hb hc he
      have : c.size ≤ c.span := le_max_left _ _
      have : 8 ≤ b.span := le_max_right _ _
      omega
  · have : b.size ≤ b.span := le_max_left _ _
    exact not_payload_of_free hlay hb hbf ⟨by omega, by omega⟩

end Payload

/-- Payloads survive a rewrite of a stretch that keeps each of its allocated blocks, at the
same place and size. -/
theorem InPayload.of_replace {pre mid post mid' : List Blk}
    (h : ∀ b ∈ mid, b.alloc = true → ∃ b' ∈ mid', b'.alloc = true ∧ b'.addr = b.addr ∧
      b'.size = b.size) {x : Nat} (hx : InPayload (pre ++ mid ++ post) x) :
    InPayload (pre ++ mid' ++ post) x := by
  obtain ⟨b, hb, hba, h1, h2⟩ := hx
  simp only [List.mem_append] at hb
  rcases hb with (hb | hb) | hb
  · exact ⟨b, by simp [hb], hba, h1, h2⟩
  · obtain ⟨b', hb', h3, h4, h5⟩ := h b hb hba
    exact ⟨b', by simp [hb'], h3, by omega, by omega⟩
  · exact ⟨b, by simp [hb], hba, h1, h2⟩

/-- A frame that misses the payloads of a later heap misses those of an earlier one whose
payloads it keeps. -/
theorem Frame.payload {m m' : Mem} {bs bs' : List Blk} (h : Frame m m' fun x => ¬InPayload bs' x)
    (hp : ∀ x, InPayload bs x → InPayload bs' x) : Frame m m' fun x => ¬InPayload bs x :=
  h.mono fun x h hx => h (hp x hx)

section Replace

variable {s : State} {H : Heap} (hR : Rep s H)
include hR

/-- A word inside a block that is not in `mid` is kept by writes inside the spans of
`mid`. -/
theorem Rep.read_outside {mid : List Blk} (hmid : ∀ b ∈ mid, b ∈ H.blocks) {m' : Mem}
    (hfr : Frame s.mem m' (InSpans mid)) {Y : Blk} (hY : Y ∈ H.blocks) (hYm : Y ∉ mid) {a : Nat}
    (ha : Y.addr ≤ a ∧ a + 8 ≤ Y.addr + Y.span) : readWord m' a = readWord s.mem a := by
  refine readWord_frame hfr fun i hi ⟨b, hb, hb1, hb2⟩ => hYm ?_
  by_cases he : b.addr = Y.addr
  · rwa [← hR.layout.eq_of_addr (hmid b hb) hY he]
  · have := hR.layout.sep (hmid b hb) hY he
    omega

/-- A block that is not in `mid` keeps its header and footer. -/
theorem Rep.hdrOk_outside {mid : List Blk} (hmid : ∀ b ∈ mid, b ∈ H.blocks) {m' : Mem}
    (hfr : Frame s.mem m' (InSpans mid)) {b : Blk} (hb : b ∈ H.blocks) (hbm : b ∉ mid) :
    HdrOk m' b := by
  refine ⟨(hR.read_outside hmid hfr hb hbm (hdr_in_span b)).trans (hR.hdrs.2 b hb).1,
    fun hf => ?_⟩
  have h16 := (hR.layout.free_size hb (Blk.alloc_of_hasFooter hf)).1
  exact (hR.read_outside hmid hfr hb hbm (footer_in_span h16)).trans ((hR.hdrs.2 b hb).2 hf)

/-- Replacing a stretch of blocks. If a rewrite inside the spans of `mid` keeps the
layout, touches no listed block and leaves correct headers on the new stretch `mid'`,
the new heap is represented. -/
theorem Rep.replace (hL : Lists H) {pre mid post mid' : List Blk} (hbl : H.blocks = pre ++ mid ++ post)
    (hlay : Layout (H.withBlocks (pre ++ mid' ++ post))) (hun : ∀ b ∈ mid, Unlisted H b.addr)
    {m' : Mem} (hfr : Frame s.mem m' (InSpans mid)) (hhdr : ∀ b ∈ mid', HdrOk m' b) :
    Rep { s with mem := m' } (H.withBlocks (pre ++ mid' ++ post)) := by
  have hmid : ∀ b ∈ mid, b ∈ H.blocks := fun b hb => by simp [hbl, hb]
  have hnd := hR.layout.nodup
  rw [hbl] at hnd
  -- a listed block is not in `mid`
  have hlist : ∀ Y ∈ H.blocks, (Y.addr ∈ H.mini ∨ ∃ i, Y.addr ∈ H.seg i) → Y ∉ mid :=
    fun Y _ hY hYm => by
      rcases hY with hY | ⟨i, hY⟩
      · exact (hun Y hYm).1 hY
      · exact (hun Y hYm).2 i hY
  -- the node at `y` keeps the words `Rep` reads, at `y + 8` and `y + 16`
  have hnode : ∀ y, (y ∈ H.mini ∨ ∃ i, y ∈ H.seg i) → ∀ o, o + 8 ≤ 16 ∨ (∃ i, y ∈ H.seg i) →
      o ≤ 16 → readWord m' (y + o) = readWord s.mem (y + o) := by
    intro y hy o ho ho'
    obtain ⟨Y, hY, rfl, hsp⟩ : ∃ Y ∈ H.blocks, Y.addr = y ∧ o + 8 ≤ Y.span := by
      rcases ho with ho | ⟨i, hi⟩
      · rcases hy with hy | ⟨i, hi⟩
        · obtain ⟨Y, hY, h1, -, h2⟩ := hL.mini_blk hy; exact ⟨Y, hY, h1, by omega⟩
        · obtain ⟨Y, hY, h1, -, h2, h3, -⟩ := hL.seg_blk hR.layout hi; exact ⟨Y, hY, h1, by omega⟩
      · obtain ⟨Y, hY, h1, -, h2, h3, -⟩ := hL.seg_blk hR.layout hi; exact ⟨Y, hY, h1, by omega⟩
    exact hR.read_outside hmid hfr hY (hlist Y hY hy) (by omega)
  refine { hR with
    layout := hlay
    hdrs := ⟨?_, fun b hb => ?_⟩
    miniLinks := hR.miniLinks.transport fun y hy => hnode y (.inl hy) 8 (.inl (by omega)) (by omega)
    segLinks := fun i hi => (hR.segLinks i hi).transport
      (fun y hy => hnode y (.inr ⟨i, hy⟩) 16 (.inr ⟨i, hy⟩) le_rfl)
      fun y hy => hnode y (.inr ⟨i, List.mem_of_mem_tail hy⟩) 8 (.inl (by omega)) (by omega) }
  · -- the prologue lies below every block
    show readWord m' H.lib.lo = _
    refine (readWord_frame hfr fun i hi ⟨b, hb, hb1, _⟩ => ?_).trans hR.hdrs.1
    have := (hR.layout.mem (hmid b hb)).1
    omega
  · simp only [Heap.withBlocks, List.mem_append] at hb
    rcases hb with (hb | hb) | hb
    · -- blocks before the stretch
      have hbm : b ∉ mid := fun h => (List.nodup_append.1 (List.nodup_append.1 hnd).1).2.2 hb h
      have hbH : b ∈ H.blocks := by simp [hbl, hb]
      exact hR.hdrOk_outside hmid hfr hbH hbm
    · exact hhdr b hb
    · -- blocks after the stretch
      have hbm : b ∉ mid := fun h =>
        (List.nodup_append.1 hnd).2.2 (List.mem_append_right _ h) hb
      have hbH : b ∈ H.blocks := by simp [hbl, hb]
      exact hR.hdrOk_outside hmid hfr hbH hbm

end Replace

/-- A state that agrees with `s` off the memory is `s` with its memory. -/
theorem State.eq_with_mem (s' s : State) (h1 : s'.lib = s.lib) (h2 : s'.heapStart = s.heapStart)
    (h3 : s'.segList = s.segList) (h4 : s'.miniList = s.miniList) : s' = { s with mem := s'.mem } := by
  cases s; cases s'; simp_all

theorem writePack_eq_mem (s : State) (b z : Nat) (a pa pm : Bool) :
    writePack s b z a pa pm = { s with mem := (writePack s b z a pa pm).mem } := by
  unfold writePack; split <;> rfl

section WritePack

variable (s : State) {X : Blk} (h16 : X.size % 16 = 0) (hlt : X.size < 2 ^ 64)
  (hfs : X.hasFooter = true → 16 ≤ X.size)
include h16 hlt hfs

/-- `write_pack` writes the header of `X`, then its footer when `X` has one. -/
theorem writePack_blk :
    writePack s X.addr X.size X.alloc X.prevAlloc X.prevMini =
      if X.hasFooter then (s.setWord X.addr X.header).setWord X.footer X.header
      else s.setWord X.addr X.header := by
  have hg : getSize (s.setWord X.addr (packAll X.size X.alloc X.prevAlloc X.prevMini)) X.addr =
      X.size := by
    rw [getSize, State.setWord_mem, readWord_writeWord_of_lt (packAll_lt _ _ _ h16 hlt),
      extractSize_packAll _ _ _ h16 hlt]
  unfold writePack
  change (if X.hasFooter = true then _ else _) = _
  split_ifs with hf
  · have := hfs hf
    rw [headerToFooter, hg]
    congr 1
    simp only [Blk.footer, wsize, dsize]
    omega
  · rfl

theorem writePack_hdrOk : HdrOk (writePack s X.addr X.size X.alloc X.prevAlloc X.prevMini).mem X := by
  have hh := Blk.header_lt h16 hlt
  rw [writePack_blk s h16 hlt hfs]
  split_ifs with hf
  · have := hfs hf
    refine ⟨?_, fun _ => readWord_writeWord_of_lt hh⟩
    simp only [State.setWord_mem]
    rw [readWord_write_disj (by unfold Disj Blk.footer; omega), readWord_writeWord_of_lt hh]
  · exact ⟨readWord_writeWord_of_lt hh, fun h => absurd h hf⟩

/-- `write_pack` writes the header word, and the footer word of a block with a footer. -/
theorem writePack_frame :
    Frame s.mem (writePack s X.addr X.size X.alloc X.prevAlloc X.prevMini).mem fun x =>
      (X.addr ≤ x ∧ x < X.addr + 8) ∨ (X.hasFooter = true ∧ X.footer ≤ x ∧ x < X.footer + 8) := by
  rw [writePack_blk s h16 hlt hfs]
  split_ifs with hf
  · exact ((frame_writeWord _ _ _).trans (frame_writeWord _ _ _)).mono fun x h =>
      h.imp id fun h => ⟨hf, h⟩
  · exact (frame_writeWord _ _ _).mono fun x h => .inl h

/-- The bytes `write_pack` writes lie in the block's span. -/
theorem writePack_frame_span :
    Frame s.mem (writePack s X.addr X.size X.alloc X.prevAlloc X.prevMini).mem (InSpans [X]) :=
  (writePack_frame s h16 hlt hfs).mono fun x h => ⟨X, List.mem_singleton_self _, by
    have : 8 ≤ X.span := le_max_right _ _
    rcases h with h | ⟨hf, h⟩
    · omega
    · have := hfs hf
      rw [Blk.span_eq (by omega)]
      simp only [Blk.footer] at h
      omega⟩

/-- The bytes `write_pack` writes are owned by any heap holding the block it writes. -/
theorem writePack_frame_owned {H : Heap} (hX : X ∈ H.blocks) :
    Frame s.mem (writePack s X.addr X.size X.alloc X.prevAlloc X.prevMini).mem (Owned H) :=
  (writePack_frame s h16 hlt hfs).mono fun x h => by
    rcases h with h | ⟨hf, h⟩
    · exact .inl ⟨X, hX, h⟩
    · have := hfs hf
      exact .inr ⟨X, hX, Blk.alloc_of_hasFooter hf, by simp only [Blk.footer] at h; omega⟩

end WritePack

/-- Re-flagging a block. `write_pack` on an unlisted block with its own size gives the
heap with that block's flags replaced; the epilogue stays allocated. -/
theorem Rep.writePack_reheader {s : State} {H : Heap} (hR : Rep s H) (hL : Lists H)
    {pre post : List Blk} {X X' : Blk} (hbl : H.blocks = pre ++ X :: post)
    (hu : Unlisted H X.addr) (ha : X'.addr = X.addr) (hs : X'.size = X.size)
    (hal : X'.alloc = X.alloc ∨ 16 ≤ X.size) :
    Rep (writePack s X'.addr X'.size X'.alloc X'.prevAlloc X'.prevMini)
        (H.withBlocks (pre ++ X' :: post)) ∧
      Lists (H.withBlocks (pre ++ X' :: post)) ∧
      Frame s.mem (writePack s X'.addr X'.size X'.alloc X'.prevAlloc X'.prevMini).mem
        (Owned (H.withBlocks (pre ++ X' :: post))) := by
  have hX : X ∈ H.blocks := by simp [hbl]
  obtain ⟨h16, hlt⟩ := hR.size_ok hX
  have hfs : X'.hasFooter = true → 16 ≤ X'.size := fun hf => by
    have hfree := Blk.alloc_of_hasFooter hf
    rw [hs]
    rcases hal with h | h
    · exact (hR.layout.free_size hX (h ▸ hfree)).1
    · exact h
  have hbl' : H.blocks = pre ++ [X] ++ post := by
    rw [hbl, List.append_assoc, List.singleton_append]
  have e : pre ++ [X'] ++ post = pre ++ X' :: post := by
    rw [List.append_assoc, List.singleton_append]
  rw [← hs] at h16 hlt
  have hsp : InSpans [X'] = InSpans [X] := by
    funext x
    simp only [InSpans, List.mem_singleton, exists_eq_left, Blk.span, ha, hs]
  refine ⟨?_, e ▸ hL.replace hbl' (by simpa using hu), ?_⟩
  · rw [writePack_eq_mem, ← e]
    refine hR.replace hL hbl' (e ▸ hR.layout.reheader hbl ha hs hal) (by simpa using hu)
      (hsp ▸ writePack_frame_span s h16 hlt hfs) ?_
    simpa using writePack_hdrOk s h16 hlt hfs
  · exact writePack_frame_owned s h16 hlt hfs (by simp [Heap.withBlocks])

end SegAlloc.Refine
