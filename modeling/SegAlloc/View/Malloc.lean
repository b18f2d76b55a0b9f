import SegAlloc.View.Coalesce

/-!
# The invariant across `malloc` and `free`

`malloc` takes a free block `B` off its list, marks it allocated and tells its
right neighbour so (`WF.take`); `split_block` cuts the allocated block in two,
leaving a free remainder that is on no list and whose right neighbour still says
its left neighbour is allocated (`WF.split`): exactly the exception `WFBut` that
coalescing repairs. `free` clears the alloc bit of an allocated block and leaves
the same exception (`WF.release`).
-/

namespace SegAlloc.View

open SegAlloc.Machine SegAlloc.Model

/-- `p` is the payload address of an allocated block of `z` bytes of `bs`. -/
def Holds (bs : List Blk) (p z : Nat) : Prop :=
  ∃ b ∈ bs, b.alloc = true ∧ b.size ≠ 0 ∧ b.addr + 8 = p ∧ b.size = z

instance (bs : List Blk) (p z : Nat) : Decidable (Holds bs p z) :=
  inferInstanceAs (Decidable (∃ b ∈ bs, _))

section Holds

variable {p z : Nat}

@[simp] theorem holds_nil : ¬Holds [] p z := by simp [Holds]

theorem holds_cons {b : Blk} {bs : List Blk} : Holds (b :: bs) p z ↔
    (b.alloc = true ∧ b.size ≠ 0 ∧ b.addr + 8 = p ∧ b.size = z) ∨ Holds bs p z := by
  simp [Holds]

@[simp] theorem holds_append {l₁ l₂ : List Blk} : Holds (l₁ ++ l₂) p z ↔ Holds l₁ p z ∨ Holds l₂ p z := by
  simp only [Holds, List.mem_append, or_and_right, exists_or]

/-- A free block, or the epilogue, holds nothing. -/
theorem holds_cons_skip {b : Blk} {l : List Blk} (hb : b.alloc = false ∨ b.size = 0) :
    Holds (b :: l) p z ↔ Holds l p z := by
  rcases hb with hb | hb <;> simp [holds_cons, hb]

theorem holds_cons_alloc {b : Blk} {l : List Blk} (hb : b.alloc = true) (h0 : b.size ≠ 0) :
    Holds (b :: l) p z ↔ (p = b.addr + 8 ∧ z = b.size) ∨ Holds l p z := by
  rw [holds_cons, hb, eq_comm (a := b.addr + 8), eq_comm (a := b.size)]
  simp [h0]

/-- Only the address, size and alloc bit of a block decide what it holds. -/
theorem holds_cons_flags {b : Blk} {l : List Blk} (pa pm : Bool) :
    Holds ({ b with prevAlloc := pa, prevMini := pm } :: l) p z ↔ Holds (b :: l) p z := by
  simp [holds_cons]

theorem holds_of_free {l : List Blk} (h : ∀ b ∈ l, b.alloc = false) : ¬Holds l p z :=
  fun ⟨b, hb, hba, _⟩ => by rw [h b hb] at hba; cases hba

/-- Coalescing keeps the allocations. -/
theorem MergesRun.holds {H H' : Heap} {B : Blk} {r : Nat} (h : MergesRun H B r H') :
    Holds H'.blocks p z ↔ Holds H.blocks p z := by
  obtain ⟨preX, F, rest, N₀, postX, hbl, -, hfree, -, -, -, rfl⟩ := h
  simp only [Heap.push_blocks, Heap.withBlocks_blocks, Heap.absorb_blocks, hbl, holds_append,
    holds_cons, holds_of_free hfree, false_or]
  simp [Blk.merge, Blk.afterFree]

end Holds

theorem MergesRun.lib {H H' : Heap} {B : Blk} {r : Nat} (h : MergesRun H B r H') :
    H'.lib = H.lib := by
  obtain ⟨-, -, -, -, -, -, -, -, -, -, -, rfl⟩ := h
  simp

/-- The merged block. Coalescing returns a free, listed block that covers `B`. -/
theorem MergesRun.result {H H' : Heap} {B : Blk} {r : Nat} (hlay : Layout H)
    (h : MergesRun H B r H') : ∃ M ∈ H'.blocks, M.addr = r ∧ M.alloc = false ∧
      r ∈ H'.listFor M.size ∧ M.addr ≤ B.addr ∧ B.addr + B.size ≤ M.addr + M.size := by
  obtain ⟨preX, F, rest, N₀, postX, hbl, hB, -, -, -, rfl, rfl⟩ := h
  have hrun := (Seg.bounds (hlay.seg_run hbl)).2 B hB
  have hM := (hlay.merge hbl).1
  simp only [seg_cons, seg_nil] at hM
  exact ⟨F.merge rest, by simp, rfl, rfl, mem_listFor_push_self _ _, by omega, by omega⟩

/-- A first block with another's flags keeps the first-block condition. -/
theorem firstOk_congr {pre l l' : List Blk} {X X' : Blk} (h : FirstOk (pre ++ X :: l))
    (hpa : X'.prevAlloc = X.prevAlloc) (hpm : X'.prevMini = X.prevMini) :
    FirstOk (pre ++ X' :: l') := by
  cases pre with
  | nil =>
    intro b hb
    simp only [List.nil_append, List.head?_cons, Option.mem_def, Option.some.injEq] at hb
    subst hb
    rw [hpa, hpm]
    exact h X rfl
  | cons Y pre => exact h

section Take

variable {H : Heap} (hW : WF H) {pre post : List Blk} {B N : Blk}
  (hbl : H.blocks = pre ++ B :: N :: post) (hBf : B.alloc = false)
include hW hbl hBf

/-- The right neighbour of a free block is allocated. -/
theorem WF.next_alloc : N.alloc = true := by
  have hap := hW.apart
  rw [hbl] at hap
  rcases (List.chain'_cons.1 (chain'_unsplice hap).2.1).1 with h | h
  · rw [hBf] at h; cases h
  · exact h

/-- Taking a free block. `remove_free` of a free block, then marking it allocated and
setting the `prev_alloc` flag of its right neighbour, keeps the invariant. -/
theorem WF.take :
    WF ((H.erase B.addr B.size).withBlocks
      (pre ++ { B with alloc := true } :: { N with prevAlloc := true } :: post)) := by
  set B' : Blk := { B with alloc := true }
  set N' : Blk := { N with prevAlloc := true }
  have hN := hW.next_alloc hbl hBf
  have hBm : B ∈ H.blocks := by simp [hbl]
  have hNm : N ∈ H.blocks := by simp [hbl]
  have hnd := hW.layout.nodup
  rw [hbl] at hnd
  -- layout: two re-headings
  have hlay₁ : Layout (H.withBlocks (pre ++ B' :: N :: post)) :=
    hW.layout.reheader hbl rfl rfl (.inr (hW.layout.free_size hBm hBf).1)
  have hlay₂ : Layout (H.withBlocks (pre ++ B' :: N' :: post)) := by
    have := hlay₁.reheader (show (H.withBlocks (pre ++ B' :: N :: post)).blocks =
      (pre ++ [B']) ++ N :: post by simp) (show N'.addr = N.addr from rfl) rfl (.inl rfl)
    simpa using this
  -- lists: `B` is erased, and neither `B` nor `N` is listed afterwards
  have hL₁ := hW.lists.erase B.addr B.size
  have hL₂ : Lists ((H.erase B.addr B.size).withBlocks (pre ++ B' :: N' :: post)) := by
    have h : Lists ((H.erase B.addr B.size).withBlocks (pre ++ [B', N'] ++ post)) :=
      hL₁.replace (show (H.erase B.addr B.size).blocks = pre ++ [B, N] ++ post by simp [hbl])
        fun b hb => by
        simp only [List.mem_cons, List.mem_singleton, List.not_mem_nil, or_false] at hb
        rcases hb with rfl | rfl
        · exact hW.lists.unlisted_erase hW.layout hBm
        · exact (hW.lists.unlisted_of_alloc hW.layout hNm hN).erase _ _
    simpa using h
  have hfl := hW.flags
  have hap := hW.apart
  rw [hbl] at hfl hap
  obtain ⟨hfpre, hfmid, hfseam⟩ := chain'_unsplice hfl
  obtain ⟨happre, hapmid, -⟩ := chain'_unsplice hap
  have hfBN := List.chain'_cons.1 hfmid
  have hapBN := List.chain'_cons.1 hapmid
  refine
    { layout := hlay₂.of_eq (by simp) (by simp)
      lists := hL₂
      first := ?_
      flags := ?_
      apart := ?_
      listed := ?_ }
  · have := hW.first
    rw [hbl] at this
    exact firstOk_congr this rfl rfl
  · simp only [Heap.withBlocks_blocks]
    exact chain'_splice hfpre (List.chain'_cons.2 ⟨⟨rfl, hfBN.1.2⟩,
      chain'_head_congr hfBN.2 fun y hy => hy⟩) hfseam
  · simp only [Heap.withBlocks_blocks]
    exact chain'_splice happre (List.chain'_cons.2 ⟨.inl rfl,
      chain'_head_congr hapBN.2 fun y _ => .inl hN⟩) fun z _ => .inr rfl
  · intro b hb hbf
    simp only [Heap.withBlocks_blocks, List.mem_append, List.mem_cons] at hb
    have hbB : b ≠ B := fun h => by
      rcases hb with hb | rfl | rfl | hb
      · exact (List.nodup_append.1 hnd).2.2 hb (by simp [← h])
      · simp [B'] at hbf
      · simp [N', hN] at hbf
      · rw [h] at hb
        exact (List.nodup_cons.1 (List.nodup_append.1 hnd).2.1).1 (by simp [hb])
    have hbH : b ∈ H.blocks := by
      rcases hb with hb | rfl | rfl | hb
      · simp [hbl, hb]
      · simp [B'] at hbf
      · simp [N', hN] at hbf
      · simp [hbl, hb]
    have hne : b.addr ≠ B.addr := fun h => hbB (hW.layout.eq_of_addr hbH hBm h)
    exact (mem_listFor_erase hne).2 (hW.listed b hbH hbf)

end Take

section Replace

variable {H : Heap} (hW : WF H) {pre post : List Blk} {B : Blk}
  (hbl : H.blocks = pre ++ B :: post)
include hW hbl

/-- Free blocks other than those replacing `B` were free blocks of the heap, and listed. -/
theorem WF.listed_outside (mid : List Blk) (X : Blk) (hbf : ∀ b ∈ mid, b.alloc = false → b = X)
    {b : Blk} (hb : b ∈ pre ++ mid ++ post) (hf : b.alloc = false) (hbX : b ≠ X) :
    b.addr ∈ H.listFor b.size := by
  have hbH : b ∈ H.blocks := by
    rw [hbl]
    simp only [List.mem_append] at hb
    rcases hb with (hb | hb) | hb
    · simp [hb]
    · exact absurd (hbf b hb hf) hbX
    · simp [hb]
  exact hW.listed b hbH hf

variable (hBa : B.alloc = true)
include hBa

/-- Splitting an allocated block. Cutting `B` into an allocated block of `asize` bytes
and a free remainder leaves the invariant broken only at the remainder, which is on no list
and whose right neighbour still says its left neighbour is allocated. -/
theorem WF.split {asize : Nat} (h16 : 16 ≤ asize) (hmod : asize % 16 = 0)
    (hle : asize + minBlockSize ≤ B.size) :
    WFBut (H.withBlocks (pre ++ { B with size := asize } ::
        ⟨B.addr + asize, B.size - asize, false, true, asize == minBlockSize⟩ :: post))
      ⟨B.addr + asize, B.size - asize, false, true, asize == minBlockSize⟩ := by
  set A : Blk := { B with size := asize }
  set R : Blk := ⟨B.addr + asize, B.size - asize, false, true, asize == minBlockSize⟩
  have hBm : B ∈ H.blocks := by simp [hbl]
  have hBs : B.size % 16 = 0 := by
    rcases (hW.layout.mem hBm).2.2 with ⟨h0, -⟩ | ⟨-, h⟩
    · simp only [minBlockSize, dsize, wsize] at hle; omega
    · exact h
  -- layout: `B` is re-tiled as `A` and `R`
  have hbl' : H.blocks = pre ++ [B] ++ post := by simp [hbl]
  have hle' : asize + 16 ≤ B.size := by simpa [minBlockSize, dsize, wsize] using hle
  have hsegB : Seg B.addr [B] (B.addr + B.size) := seg_cons.2 ⟨rfl, by omega, hBs, rfl⟩
  have hsegAR : Seg B.addr [A, R] (B.addr + B.size) := by
    simp only [seg_cons, seg_nil, A, R, true_and]; omega
  have hlay := hW.layout.retile hbl' hsegB (List.cons_ne_nil _ _) hsegAR
  -- lists: `R.addr` lies inside `B`, so it is no listed address
  have hBu := hW.lists.unlisted_of_alloc hW.layout hBm hBa
  have hL : Lists (H.withBlocks (pre ++ [A, R] ++ post)) :=
    hW.lists.replace hbl' fun b hb => by rw [List.mem_singleton.1 hb]; exact hBu
  have hkey : ∀ Y ∈ H.blocks, Y.addr ≠ R.addr := fun Y hY he => by
    simp only [R] at he
    by_cases hYB : Y.addr = B.addr
    · omega
    · have := hW.layout.sep hY hBm hYB
      have : B.size ≤ B.span := le_max_left _ _
      have : 8 ≤ Y.span := le_max_right _ _
      omega
  have hRu : Unlisted H R.addr := by
    refine ⟨fun h => ?_, fun i h => ?_⟩
    · obtain ⟨Y, hY, he, -⟩ := hW.lists.mini _ h; exact hkey Y hY he
    · obtain ⟨Y, hY, he, -⟩ := hW.lists.seg i _ h; exact hkey Y hY he
  have hfl := hW.flags
  have hap := hW.apart
  rw [hbl] at hfl hap
  obtain ⟨hfpre, hfmid, hfseam⟩ := chain'_unsplice hfl
  obtain ⟨happre, hapmid, -⟩ := chain'_unsplice hap
  have hfpost := (List.chain'_cons'.1 hfmid).2
  have happost := (List.chain'_cons'.1 hapmid).2
  refine
    { layout := by simpa using hlay
      lists := by simpa using hL
      mem := by simp
      free := rfl
      unlisted := hRu
      first := ?_
      flags := ?_
      apart := ?_
      listed := fun b hb hf hbR => ?_ }
  · have := hW.first
    rw [hbl] at this
    exact firstOk_congr this rfl rfl
  · have hRpost : (R :: post).Chain' fun X Y => X ≠ R → FlagsOk X Y :=
      (hfpost.imp fun X Y (h : FlagsOk X Y) (_ : X ≠ R) => h).cons' fun _ _ h => absurd rfl h
    have hmid : (A :: R :: post).Chain' fun X Y => X ≠ R → FlagsOk X Y :=
      hRpost.cons' fun y hy _ => by
        simp only [List.head?_cons, Option.mem_def, Option.some.injEq] at hy
        subst hy
        exact ⟨hBa.symm, rfl⟩
    simp only [Heap.withBlocks_blocks]
    exact chain'_splice (hfpre.imp fun X Y (h : FlagsOk X Y) (_ : X ≠ R) => h) hmid
      fun z hz _ => hfseam z hz
  · have hRpost : (R :: post).Chain' fun X Y => X = R ∨ Y = R ∨ Apart X Y :=
      (happost.imp fun _ _ h => .inr (.inr h)).cons' fun _ _ => .inl rfl
    have hmid : (A :: R :: post).Chain' fun X Y => X = R ∨ Y = R ∨ Apart X Y :=
      hRpost.cons' fun y hy => by
        simp only [List.head?_cons, Option.mem_def, Option.some.injEq] at hy
        exact .inr (.inl hy.symm)
    simp only [Heap.withBlocks_blocks]
    exact chain'_splice (happre.imp fun _ _ h => .inr (.inr h)) hmid
      fun _ _ => .inr (.inr (.inr hBa))
  · refine hW.listed_outside hbl [A, R] R (fun b hb hbf => ?_) (by simpa
      using hb) hf hbR
    simp only [List.mem_cons, List.mem_singleton, List.not_mem_nil, or_false] at hb
    rcases hb with rfl | rfl
    · simp [A, hBa] at hbf
    · rfl

/-- Freeing an allocated block. Clearing the alloc bit of a real block leaves the
invariant broken only at that block, which is on no list, whose neighbours may be free and
whose right neighbour still says it is allocated. -/
theorem WF.release (h16 : 16 ≤ B.size) :
    WFBut (H.withBlocks (pre ++ { B with alloc := false } :: post)) { B with alloc := false } := by
  set B' : Blk := { B with alloc := false }
  have hBm : B ∈ H.blocks := by simp [hbl]
  have hBu := hW.lists.unlisted_of_alloc hW.layout hBm hBa
  have hbl' : H.blocks = pre ++ [B] ++ post := by simp [hbl]
  have hL : Lists (H.withBlocks (pre ++ [B'] ++ post)) :=
    hW.lists.replace hbl' fun b hb => by rw [List.mem_singleton.1 hb]; exact hBu
  have hfl := hW.flags
  have hap := hW.apart
  rw [hbl] at hfl hap
  obtain ⟨hfpre, hfmid, hfseam⟩ := chain'_unsplice hfl
  obtain ⟨happre, hapmid, -⟩ := chain'_unsplice hap
  refine
    { layout := hW.layout.reheader hbl rfl rfl (.inr h16)
      lists := by simpa using hL
      mem := by simp
      free := rfl
      unlisted := hBu
      first := ?_
      flags := ?_
      apart := ?_
      listed := fun b hb hf hbB => ?_ }
  · have := hW.first
    rw [hbl] at this
    exact firstOk_congr this rfl rfl
  · have hmid : (B' :: post).Chain' fun X Y => X ≠ B' → FlagsOk X Y :=
      ((List.chain'_cons'.1 hfmid).2.imp fun X Y (h : FlagsOk X Y) (_ : X ≠ B') => h).cons'
        fun _ _ h => absurd rfl h
    simp only [Heap.withBlocks_blocks]
    exact chain'_splice (hfpre.imp fun X Y (h : FlagsOk X Y) (_ : X ≠ B') => h) hmid
      fun z hz _ => hfseam z hz
  · have hmid : (B' :: post).Chain' fun X Y => X = B' ∨ Y = B' ∨ Apart X Y :=
      ((List.chain'_cons'.1 hapmid).2.imp fun _ _ h => .inr (.inr h)).cons' fun _ _ => .inl rfl
    simp only [Heap.withBlocks_blocks]
    exact chain'_splice (happre.imp fun _ _ h => .inr (.inr h)) hmid fun _ _ => .inr (.inl rfl)
  · refine hW.listed_outside hbl [B'] B' (fun b hb _ => ?_) (by simpa
      using hb) hf hbB
    exact List.mem_singleton.1 hb

end Replace

section Split

variable {H : Heap} {pre post : List Blk} {B : Blk}
  (hloc : locate B.addr H.blocks = some (pre, B, post)) {asize : Nat}
include hloc

theorem split_of_le (h : asize + minBlockSize ≤ B.size) :
    split H B.addr asize = (B.addr + asize, H.withBlocks (pre ++ { B with size := asize } ::
      ⟨B.addr + asize, B.size - asize, false, true, asize == minBlockSize⟩ :: post)) := by
  simp only [split, hloc, if_pos h]

theorem split_of_lt (h : ¬asize + minBlockSize ≤ B.size) : split H B.addr asize = (0, H) := by
  simp only [split, hloc, if_neg h]

end Split

/-- `place` on a free block `X` followed by `N`: take `X`, split it, and coalesce the
remainder when there is one. -/
theorem place_eq {H : Heap} (hlay : Layout H) {pre post : List Blk} {X N : Blk}
    (hbl : H.blocks = pre ++ X :: N :: post) (asize : Nat) :
    View.place H X.addr asize =
      let H₂ := (H.erase X.addr X.size).withBlocks
        (pre ++ { X with alloc := true } :: { N with prevAlloc := true } :: post)
      if (View.split H₂ X.addr asize).1 ≠ 0 then
        (coalesce (View.split H₂ X.addr asize).2 (View.split H₂ X.addr asize).1).2
      else (View.split H₂ X.addr asize).2 := by
  simp only [View.place, hlay.locate hbl]

/-- Placing a request in a free block. Taking the free block `X`, splitting off what
`asize` does not need and coalescing it keeps the invariant; the only new allocation is
`X`'s payload, of `asize` bytes when the rest was split off and of all of `X` otherwise. -/
theorem WF.place {H : Heap} (hW : WF H) {pre post : List Blk} {X : Blk}
    (hbl : H.blocks = pre ++ X :: post) (hXf : X.alloc = false) {asize : Nat} (h16 : 16 ≤ asize)
    (hmod : asize % 16 = 0) :
    WF (View.place H X.addr asize) ∧ ∀ p z, Holds (View.place H X.addr asize).blocks p z ↔
      Holds H.blocks p z ∨
        (p = X.addr + 8 ∧ z = if asize + minBlockSize ≤ X.size then asize else X.size) := by
  have hX : X ∈ H.blocks := by simp [hbl]
  have hX16 := hW.layout.free_size hX hXf
  obtain ⟨N, post, rfl⟩ := List.exists_cons_of_ne_nil (hW.layout.succ_exists hbl hX16.1)
  set X' : Blk := { X with alloc := true }
  set N' : Blk := { N with prevAlloc := true }
  set H₂ := (H.erase X.addr X.size).withBlocks (pre ++ X' :: N' :: post)
  have hW₂ : WF H₂ := hW.take hbl hXf
  have hbl₂ : H₂.blocks = pre ++ X' :: N' :: post := rfl
  have hloc₂ : locate X'.addr H₂.blocks = some (pre, X', N' :: post) := hW₂.layout.locate hbl₂
  have hplace : View.place H X.addr asize =
      if (View.split H₂ X.addr asize).1 ≠ 0 then (coalesce (View.split H₂ X.addr asize).2
        (View.split H₂ X.addr asize).1).2 else (View.split H₂ X.addr asize).2 :=
    place_eq hW.layout hbl asize
  have hold : ∀ {p z}, Holds H.blocks p z ↔ Holds pre p z ∨ Holds (N' :: post) p z := by
    intro p z
    rw [hbl, holds_append, holds_cons_skip (.inl hXf)]
    exact or_congr_right (holds_cons_flags true N.prevMini).symm
  by_cases hs : asize + minBlockSize ≤ X.size
  · -- the rest is split off and coalesced
    rw [hplace, if_pos hs, split_of_le hloc₂ hs, if_pos (by dsimp only; omega)]
    have hW₃ := hW₂.split hbl₂ rfl h16 hmod hs
    have hm := coalesce_merges hW₃
    refine ⟨hm.wf hW₃, fun p z => ?_⟩
    rw [hm.holds, hold, Heap.withBlocks_blocks, holds_append,
      holds_cons_alloc rfl (by dsimp only; omega), holds_cons_skip (.inl rfl)]
    tauto
  · rw [hplace, split_of_lt hloc₂ hs, if_neg (by simp)]
    refine ⟨hW₂, fun p z => ?_⟩
    rw [hold, if_neg hs, hbl₂, holds_append, holds_cons_alloc rfl (by dsimp only; omega)]
    tauto

/-- The heap after `mem_sbrk` grants `z` bytes: the epilogue `epi` becomes a free block of
`z` bytes with the epilogue's flags, and a new epilogue follows it. -/
def Heap.grow (H : Heap) (lib : MemLib) (real : List Blk) (epi : Blk) (z : Nat) : Heap :=
  { H with lib := lib, blocks := real ++ [⟨epi.addr, z, false, epi.prevAlloc, epi.prevMini⟩,
    ⟨epi.addr + z, 0, true, false, z == minBlockSize⟩] }

section Grow

variable {H : Heap} (hW : WF H) {real : List Blk} {epi : Blk} (hbl : H.blocks = real ++ [epi])
  {z : Nat} (h16 : 16 ≤ z) (hmod : z % 16 = 0) {lib : MemLib} (hlo : lib.lo = H.lib.lo)
  (hbrk : lib.brk = H.lib.brk + z)
include hW hbl h16 hmod hlo hbrk

/-- Growing the heap. The new free block is the only exception to the invariant. -/
theorem WF.grow : WFBut (H.grow lib real epi z) ⟨epi.addr, z, false, epi.prevAlloc, epi.prevMini⟩ := by
  set E : Blk := ⟨epi.addr, z, false, epi.prevAlloc, epi.prevMini⟩
  set epi' : Blk := ⟨epi.addr + z, 0, true, false, z == minBlockSize⟩
  obtain ⟨real', epi₀, he, hs, h0, ha, hb⟩ := hW.layout
  obtain ⟨rfl, he'⟩ := List.append_inj' (hbl.symm.trans he) rfl
  obtain rfl := List.singleton_inj.1 he'
  have hepi : epi ∈ H.blocks := by simp [hbl]
  have hEu := hW.lists.unlisted_of_alloc hW.layout hepi ha
  have hbl' : H.blocks = real ++ [epi] ++ [] := by simp [hbl]
  have hL : Lists (H.withBlocks (real ++ [E, epi'] ++ [])) :=
    hW.lists.replace hbl' fun b hb => by rw [List.mem_singleton.1 hb]; exact hEu
  have hfl := hW.flags
  have hap := hW.apart
  rw [hbl] at hfl hap
  obtain ⟨hfpre, -, hfseam⟩ := chain'_unsplice hfl
  obtain ⟨happre, -, -⟩ := chain'_unsplice hap
  refine
    { layout := ⟨real ++ [E], epi', by simp [Heap.grow],
        seg_append.2 ⟨epi.addr, hlo ▸ hs, seg_cons.2 ⟨rfl, h16, hmod, rfl⟩⟩, rfl, rfl,
        by simp only [Heap.grow, epi', hbrk]; omega⟩
      lists := hL.of_eq (by simp [Heap.grow]) rfl rfl
      mem := by simp [Heap.grow]
      free := rfl
      unlisted := hEu
      first := ?_
      flags := ?_
      apart := ?_
      listed := fun b hb hf hbE => ?_ }
  · have := hW.first
    rw [hbl] at this
    exact firstOk_congr this rfl rfl
  · have hmid : [E, epi'].Chain' fun X Y => X ≠ E → FlagsOk X Y :=
      List.chain'_pair.2 fun h => absurd rfl h
    exact chain'_splice (hfpre.imp fun X Y (h : FlagsOk X Y) (_ : X ≠ E) => h) hmid
      fun x hx _ => hfseam x hx
  · have hmid : [E, epi'].Chain' fun X Y => X = E ∨ Y = E ∨ Apart X Y :=
      List.chain'_pair.2 (.inl rfl)
    exact chain'_splice (happre.imp fun _ _ h => .inr (.inr h)) hmid fun _ _ => .inr (.inl rfl)
  · have hbH : b ∈ H.blocks := by
      simp only [Heap.grow, List.mem_append, List.mem_cons, List.not_mem_nil, or_false] at hb
      rcases hb with hb | rfl | rfl
      · simp [hbl, hb]
      · exact absurd rfl hbE
      · cases hf
    exact hW.listed b hbH hf

end Grow

/-- The invariant does not read the `memlib` side beyond the heap bounds. -/
theorem WF.withLib {H : Heap} (hW : WF H) {lib : MemLib} (hlo : lib.lo = H.lib.lo)
    (hbrk : lib.brk = H.lib.brk) : WF { H with lib := lib } :=
  { hW with
    layout := hW.layout.of_bounds rfl hlo hbrk
    lists := hW.lists.of_eq rfl rfl rfl }

section Extend

variable {H : Heap} {z : Nat}

theorem extend_of_fail (h : (H.lib.sbrk (toIntptr (roundUp z dsize))).1 = sbrkFailed) :
    extend H z = (0, { H with lib := (H.lib.sbrk (toIntptr (roundUp z dsize))).2 }) := by
  simp only [extend, h, if_true]

theorem extend_of_grant {real : List Blk} {epi : Blk} (hbl : H.blocks = real ++ [epi])
    (h : (H.lib.sbrk (toIntptr (roundUp z dsize))).1 ≠ sbrkFailed) :
    extend H z = coalesce (H.grow (H.lib.sbrk (toIntptr (roundUp z dsize))).2 real epi
      (roundUp z dsize)) epi.addr := by
  simp only [extend, h, if_false, hbl, List.getLast?_concat, List.dropLast_concat]
  rfl

/-- `extend_heap` on the decoded heap keeps the invariant and the allocations; it returns
`NULL` when `mem_sbrk` refuses, and otherwise a free block at the heap's end. -/
theorem WF.extend (hW : WF H) (hlo : H.lib.lo % 16 = 0) (h16 : 16 ≤ z) (hmod : z % 16 = 0) (hlt : z < 2 ^ 64) :
    WF (View.extend H z).2 ∧ (∀ p w, Holds (View.extend H z).2.blocks p w ↔ Holds H.blocks p w) ∧
      (View.extend H z).2.lib = (H.lib.sbrk (toIntptr z)).2 ∧
      ((View.extend H z).1 = 0 →
        (View.extend H z).2 = { H with lib := (H.lib.sbrk (toIntptr z)).2 }) ∧
      ((View.extend H z).1 ≠ 0 → ∃ M ∈ (View.extend H z).2.blocks, M.addr = (View.extend H z).1 ∧
        M.alloc = false ∧ M.addr ∈ (View.extend H z).2.listFor M.size ∧ z ≤ M.size ∧
        M.addr + M.size + 8 = (View.extend H z).2.lib.brk) := by
  have hz : roundUp z dsize = z := roundUp_of_mod hmod hlt
  obtain ⟨real, epi, hbl, hseg, h0, ha, hbrk⟩ := hW.layout
  have hepi8 := hW.layout.addr_mod hlo (show epi ∈ H.blocks by simp [hbl])
  by_cases hok : (H.lib.sbrk (toIntptr z)).1 = sbrkFailed
  · rw [extend_of_fail (hz.symm ▸ hok), hz]
    have hb := MemLib.sbrk_failed_brk (by unfold sbrkFailed; omega) hok
    exact ⟨hW.withLib (MemLib.sbrk_lo _ _) hb, fun _ _ => Iff.rfl, rfl, fun _ => rfl,
      fun h => absurd rfl h⟩
  · obtain ⟨-, hgrow, -⟩ := MemLib.sbrk_granted hlt hok
    rw [extend_of_grant hbl (hz.symm ▸ hok), hz]
    have hlo' : (H.lib.sbrk (toIntptr z)).2.lo = H.lib.lo := MemLib.sbrk_lo _ _
    generalize (H.lib.sbrk (toIntptr z)).2 = lib at hgrow hlo' ⊢
    have hWb := hW.grow hbl h16 hmod hlo' hgrow
    have hm := coalesce_merges hWb
    have hW' := hm.wf hWb
    obtain ⟨M, hM, hMa, hMf, hMl, hMs, hMe⟩ := hm.result hWb.layout
    dsimp only at hMa hMs hMe
    have hlib : (coalesce (H.grow lib real epi z) epi.addr).2.lib = lib := hm.lib
    have hMend := hW'.layout.end_le hM (by have := (hW'.layout.free_size hM hMf).1; omega)
    have hMlo := (hW'.layout.mem hM).1
    rw [hlib] at hMend hMlo
    have hepi : Holds H.blocks = Holds real := by
      funext p w
      rw [hbl, holds_append, holds_cons_skip (.inr h0)]
      simp
    refine ⟨hW', fun p w => ?_, hlib, fun h => ?_, fun _ => ⟨M, hM, hMa, hMf, hMa ▸ hMl, ?_, ?_⟩⟩
    · rw [hm.holds, hepi]
      simp [Heap.grow, holds_cons]
    · omega
    · omega
    · rw [hlib]
      omega

/-- When `mem_sbrk` grants the request, `extend` returns a block, never `NULL`. -/
theorem extend_ne_zero (hW : WF H) (h16 : 16 ≤ z) (hmod : z % 16 = 0) (hlt : z < 2 ^ 64)
    (hok : (H.lib.sbrk (toIntptr z)).1 ≠ sbrkFailed) : (View.extend H z).1 ≠ 0 := by
  have hz : roundUp z dsize = z := roundUp_of_mod hmod hlt
  obtain ⟨real, epi, hbl, -⟩ := hW.layout
  obtain ⟨-, hgrow, -⟩ := MemLib.sbrk_granted hlt hok
  rw [extend_of_grant hbl (hz.symm ▸ hok), hz]
  have hWb := hW.grow hbl h16 hmod (MemLib.sbrk_lo _ _) hgrow
  have hm := coalesce_merges hWb
  obtain ⟨M, hM, hMa, -⟩ := hm.result hWb.layout
  have := ((hm.wf hWb).layout.mem hM).1
  dsimp only at hMa
  omega

end Extend

end SegAlloc.View
