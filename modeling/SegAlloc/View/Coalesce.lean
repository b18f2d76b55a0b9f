import SegAlloc.View.Inv

/-!
# Coalescing restores the invariant

All four cases of `coalesce_block` merge a run of free blocks, the exceptional
block `B` and its free neighbours, into one block `M` with the flags of the
run's first block, clear the flags of the block after the run, and push `M` on
the list for its size. `WFBut.merge` proves once that this turns `WFBut H B`
into `WF`; `coalesce_wf` shows that each case of `coalesce` is such a merge.
-/

namespace SegAlloc.View

open SegAlloc.Machine SegAlloc.Model

/-- The block a run `F :: rest` of free blocks merges into. -/
def Blk.merge (F : Blk) (rest : List Blk) : Blk :=
  ⟨F.addr, F.size + (rest.map (·.size)).sum, false, F.prevAlloc, F.prevMini⟩

/-- The block after a free block `M`: its flags say that `M` is free. -/
def Blk.afterFree (N M : Blk) : Blk :=
  { N with prevAlloc := false, prevMini := M.size == minBlockSize }

/-- `remove_free` on each block of `bs` in turn. -/
def Heap.absorb (H : Heap) (bs : List Blk) : Heap := bs.foldl (fun H b => H.erase b.addr b.size) H

/-- What coalescing `B` does, as the spec states it: the maximal free run `F :: rest` around
`B` becomes the listed free block `F.merge rest`, and everything else stays. -/
def MergesRun (H : Heap) (B : Blk) (r : Nat) (H' : Heap) : Prop :=
  ∃ preX F rest N₀ postX, H.blocks = preX ++ (F :: rest) ++ N₀ :: postX ∧ B ∈ F :: rest ∧
    (∀ b ∈ F :: rest, b.alloc = false) ∧ (∀ X ∈ preX.getLast?, X.alloc = true) ∧
    N₀.alloc = true ∧ r = F.addr ∧
    H' = ((H.absorb ((F :: rest).filter (· ≠ B))).withBlocks
      (preX ++ F.merge rest :: N₀.afterFree (F.merge rest) :: postX)).push F.addr
        (F.merge rest).size

theorem not_mem_run {α : Type} {l₁ m l₂ : List α} (h : (l₁ ++ m ++ l₂).Nodup) {b : α}
    (hb : b ∈ l₁ ++ l₂) : b ∉ m := fun hm => by
  rw [List.nodup_append, List.nodup_append] at h
  rcases List.mem_append.1 hb with hb | hb
  · exact h.1.2.2 hb hm
  · exact h.2.2 (List.mem_append_right _ hm) hb

/-- A chain from `N` on keeps holding when `N` is replaced by a block that relates to
every block as `N` does. -/
theorem chain'_head_congr {R : Blk → Blk → Prop} {N N' : Blk} {l : List Blk}
    (h : (N :: l).Chain' R) (hR : ∀ y, R N y → R N' y) : (N' :: l).Chain' R := by
  cases l with
  | nil => exact List.chain'_singleton _
  | cons y l => exact List.chain'_cons.2 ⟨hR y (List.chain'_cons.1 h).1, (List.chain'_cons.1 h).2⟩

/-- The merged block spans its run, and replacing the run by it keeps the layout. -/
theorem Layout.merge {H : Heap} (h : Layout H) {pre rest post : List Blk} {F N : Blk}
    (hbl : H.blocks = pre ++ (F :: rest) ++ N :: post) :
    Seg F.addr [F.merge rest] N.addr ∧ Layout (H.withBlocks (pre ++ F.merge rest :: N :: post)) := by
  have hrun := h.seg_run hbl
  obtain ⟨hend, hmod⟩ := Seg.sum hrun
  have hF16 : 16 ≤ F.size := hrun.2.1
  have hsegM : Seg F.addr [F.merge rest] N.addr := by
    have hMs : (F.merge rest).size = F.size + (rest.map (·.size)).sum := rfl
    simp only [List.map_cons, List.sum_cons] at hend hmod
    exact seg_cons.2 ⟨rfl, by omega, by omega, by simp only [seg_nil]; omega⟩
  exact ⟨hsegM, by simpa using h.retile hbl hrun (List.cons_ne_nil _ _) hsegM⟩

section Merge

variable {H : Heap} {B : Blk} (hW : WFBut H B) {preX rest postX : List Blk} {F N₀ : Blk}
  (hbl : H.blocks = preX ++ (F :: rest) ++ N₀ :: postX) (hB : B ∈ F :: rest)
  (hleft : ∀ X ∈ preX.getLast?, X.alloc = true) (hright : N₀.alloc = true)
  {H₁ : Heap} (hb₁ : H₁.blocks = H.blocks) (hlib₁ : H₁.lib = H.lib) (hL₁ : Lists H₁)
  (hun : ∀ b ∈ F :: rest, Unlisted H₁ b.addr)
  (hkeep : ∀ b ∈ H.blocks, b ∉ F :: rest → b.addr ∈ H.listFor b.size →
    b.addr ∈ H₁.listFor b.size)
include hW hbl hB hleft hright hb₁ hlib₁ hL₁ hun hkeep

/-- Merging a free run. Replacing a maximal run of free blocks that holds the
exception `B` by the merged block, clearing the flags of the block after it and pushing
the merged block restores the invariant. -/
theorem WFBut.merge :
    WF ((H₁.withBlocks (preX ++ F.merge rest :: N₀.afterFree (F.merge rest) :: postX)).push
      (F.merge rest).addr (F.merge rest).size) := by
  set M := F.merge rest with hM
  set N₁ := N₀.afterFree M with hN₁
  have hlay₁ : Layout H₁ := hW.layout.of_eq hb₁ hlib₁
  have hbl₁ : H₁.blocks = preX ++ (F :: rest) ++ N₀ :: postX := hb₁.trans hbl
  have hnd := hW.layout.nodup
  rw [hbl] at hnd
  have hBpre : ∀ X ∈ preX, X ≠ B := fun X hX h =>
    not_mem_run hnd (List.mem_append_left _ (h ▸ hX)) hB
  have hBpost : ∀ X ∈ N₀ :: postX, X ≠ B := fun X hX h =>
    not_mem_run hnd (List.mem_append_right _ (h ▸ hX)) hB
  -- the new block sequence
  have hlay₂ : Layout (H₁.withBlocks (preX ++ M :: N₁ :: postX)) := by
    have hb : (H₁.withBlocks (preX ++ M :: N₀ :: postX)).blocks = (preX ++ [M]) ++ N₀ :: postX := by
      simp
    have := (hlay₁.merge hbl₁).2.reheader hb (show N₁.addr = N₀.addr from rfl)
      (show N₁.size = N₀.size from rfl) (.inl (show N₁.alloc = N₀.alloc from rfl))
    simpa using this
  -- lists
  have hN₀u : Unlisted H₁ N₀.addr := by
    have hN₀ : N₀ ∈ H₁.blocks := by simp [hbl₁]
    refine ⟨fun h => ?_, fun i h => ?_⟩
    · obtain ⟨b, hb, he, hbf, -⟩ := hL₁.mini _ h
      rw [hlay₁.eq_of_addr hb hN₀ he] at hbf; simp [hbf] at hright
    · obtain ⟨b, hb, he, hbf, -⟩ := hL₁.seg i _ h
      rw [hlay₁.eq_of_addr hb hN₀ he] at hbf; simp [hbf] at hright
  have hL₂ : Lists (H₁.withBlocks (preX ++ M :: N₁ :: postX)) := by
    have hbl₁' : H₁.blocks = preX ++ ((F :: rest) ++ [N₀]) ++ postX := by simpa using hbl₁
    have : Lists (H₁.withBlocks (preX ++ [M, N₁] ++ postX)) := hL₁.replace hbl₁' fun b hb => by
        rcases List.mem_append.1 hb with hb | hb
        · exact hun b hb
        · rw [List.mem_singleton.1 hb]; exact hN₀u
    simpa using this
  refine
    { layout := hlay₂.of_eq (by simp) (by simp)
      lists := hL₂.push (by simp) rfl (hun F (List.mem_cons_self _ _))
      first := ?_
      flags := ?_
      apart := ?_
      listed := ?_ }
  · -- the first block: `M` takes `F`'s flags
    intro b hb
    cases preX with
    | nil =>
      simp only [Heap.push_blocks, Heap.withBlocks_blocks, List.nil_append, List.head?_cons,
        Option.mem_def, Option.some.injEq] at hb
      subst hb
      exact hW.first F (by simp [hbl])
    | cons X preX =>
      simp only [Heap.push_blocks, Heap.withBlocks_blocks, List.cons_append, List.head?_cons,
        Option.mem_def, Option.some.injEq] at hb
      subst hb
      exact hW.first _ (by simp [hbl])
  · -- flags: the left seam keeps `F`'s flags, the right neighbour says `M` is free
    have hfl := hW.flags
    rw [hbl, List.append_assoc] at hfl
    obtain ⟨hpre, hmid, hseam⟩ := chain'_unsplice hfl
    have hpost := (chain'_unsplice (List.chain'_cons'.1 hmid).2).2.1
    simp only [Heap.push_blocks, Heap.withBlocks_blocks]
    refine chain'_splice (chain'_of_avoid hpre fun X hX _ _ h => h (hBpre X hX)) ?_
      fun X hX => hseam X hX (hBpre X (List.mem_of_getLast?_eq_some hX))
    exact List.chain'_cons.2 ⟨⟨rfl, rfl⟩, chain'_head_congr
      (chain'_of_avoid hpost fun X hX _ _ h => h (hBpost X hX)) fun y hy => hy⟩
  · -- no two free neighbours: the run was maximal
    have hap := hW.apart
    rw [hbl, List.append_assoc] at hap
    obtain ⟨hpre, hmid, -⟩ := chain'_unsplice hap
    have hpost := (chain'_unsplice (List.chain'_cons'.1 hmid).2).2.1
    have hout : ∀ l : List Blk, (∀ X ∈ l, X ≠ B) →
        l.Chain' (fun X Y => X = B ∨ Y = B ∨ Apart X Y) → l.Chain' Apart := fun l hl h =>
      chain'_of_avoid h fun X hX Y hY h => by
        rcases h with h | h | h
        · exact absurd h (hl X hX)
        · exact absurd h (hl Y hY)
        · exact h
    simp only [Heap.push_blocks, Heap.withBlocks_blocks]
    exact chain'_splice (hout _ hBpre hpre)
      (List.chain'_cons.2 ⟨.inr hright, chain'_head_congr (hout _ hBpost hpost)
        fun y _ => .inl hright⟩) fun X hX => .inl (hleft X hX)
  · -- every free block is listed: `M` is pushed, the others were listed before
    have hother : ∀ b, b ∈ preX ++ N₀ :: postX → b.alloc = false →
        b.addr ∈ ((H₁.withBlocks (preX ++ M :: N₁ :: postX)).push M.addr M.size).listFor b.size :=
      fun b hb hbf => by
        have hbH : b ∈ H.blocks := by
          rw [hbl]; rcases List.mem_append.1 hb with h | h <;> simp [h]
        have hne : b ≠ B := by
          rcases List.mem_append.1 hb with h | h
          · exact hBpre b h
          · exact hBpost b h
        refine mem_listFor_push ?_
        rw [Heap.listFor_withBlocks]
        exact hkeep b hbH (not_mem_run hnd hb) (hW.listed b hbH hbf hne)
    intro b hb hbf
    simp only [Heap.push_blocks, Heap.withBlocks_blocks, List.mem_append, List.mem_cons] at hb
    rcases hb with hb | rfl | rfl | hb
    · exact hother b (List.mem_append_left _ hb) hbf
    · exact mem_listFor_push_self _ _
    · simp [hN₁, Blk.afterFree, hright] at hbf
    · exact hother b (by simp [hb]) hbf

end Merge

section Absorb

variable {H : Heap}

@[simp] theorem Heap.absorb_blocks (bs : List Blk) : (H.absorb bs).blocks = H.blocks := by
  induction bs generalizing H with
  | nil => rfl
  | cons b bs ih => exact ih.trans (Heap.erase_blocks _ _ _)

@[simp] theorem Heap.absorb_lib (bs : List Blk) : (H.absorb bs).lib = H.lib := by
  induction bs generalizing H with
  | nil => rfl
  | cons b bs ih => exact ih.trans (Heap.erase_lib _ _ _)

/-- The lists after absorbing blocks of the heap: still lists of free blocks, the absorbed
blocks on none, an unlisted block still on none, and any other block where it was. -/
theorem Lists.absorb (hlay : Layout H) (hL : Lists H) {bs : List Blk}
    (hbs : ∀ b ∈ bs, b ∈ H.blocks) :
    Lists (H.absorb bs) ∧ (∀ b ∈ bs, Unlisted (H.absorb bs) b.addr) ∧
      (∀ x, Unlisted H x → Unlisted (H.absorb bs) x) ∧
      (∀ b ∈ H.blocks, b ∉ bs → ∀ size, b.addr ∈ H.listFor size →
        b.addr ∈ (H.absorb bs).listFor size) := by
  induction bs generalizing H with
  | nil => exact ⟨hL, by simp, fun _ h => h, fun _ _ _ _ h => h⟩
  | cons c bs ih =>
    have hc : c ∈ H.blocks := hbs c (List.mem_cons_self _ _)
    have hlay' : Layout (H.erase c.addr c.size) := hlay.of_eq (by simp) (by simp)
    obtain ⟨h1, h2, h3, h4⟩ := ih hlay' (hL.erase c.addr c.size)
      fun b hb => by simpa using hbs b (List.mem_cons_of_mem _ hb)
    refine ⟨h1, fun b hb => ?_, fun x hx => h3 x (hx.erase _ _), fun b hb hbn size hm => ?_⟩
    · rcases List.mem_cons.1 hb with rfl | hb
      · exact h3 _ (hL.unlisted_erase hlay hc)
      · exact h2 b hb
    · refine h4 b (by simpa using hb) (fun h => hbn (List.mem_cons_of_mem _ h)) size ?_
      have hne : b.addr ≠ c.addr := fun he =>
        hbn (by rw [hlay.eq_of_addr hb hc he]; exact List.mem_cons_self _ _)
      exact (mem_listFor_erase hne).2 hm

end Absorb

theorem beq_min_of_big {x : Nat} (h : 16 < x) : (x == minBlockSize) = false := by
  simp only [minBlockSize, dsize, wsize, beq_eq_false_iff_ne]; omega

/-- The block after a merged block of more than 16 bytes: both flags clear. -/
theorem afterFree_of_big {N M : Blk} (h : 16 < M.size) :
    N.afterFree M = { N with prevAlloc := false, prevMini := false } := by
  simp only [Blk.afterFree, beq_min_of_big h]

section Cases

variable {H : Heap} {pre post : List Blk} {B N : Blk}
  (hloc : locate B.addr H.blocks = some (pre, B, N :: post))
include hloc

theorem coalesce_one (hpa : B.prevAlloc = true) (hna : N.alloc = true) :
    coalesce H B.addr = (B.addr, (H.withBlocks (pre ++ B :: N.afterFree B :: post)).push B.addr
      B.size) := by
  have e : N.afterFree B =
      { N with alloc := true, prevAlloc := false, prevMini := B.size == minBlockSize } := by
    ext <;> simp [Blk.afterFree, hna]
  rw [e]
  simp [coalesce, hloc, hpa, hna]

theorem coalesce_two {P : Blk} (hpa : B.prevAlloc = false) (hP : pre.getLast? = some P)
    (hna : N.alloc = true) (hP16 : 16 ≤ P.size) (hB16 : 16 ≤ B.size) :
    coalesce H B.addr = (P.addr, ((H.erase P.addr P.size).withBlocks (pre.dropLast ++
      P.merge [B] :: N.afterFree (P.merge [B]) :: post)).push P.addr (P.merge [B]).size) := by
  have e1 : P.merge [B] = ⟨P.addr, P.size + B.size, false, P.prevAlloc, P.prevMini⟩ := by
    simp [Blk.merge]
  have e2 : N.afterFree (P.merge [B]) =
      { N with alloc := true, prevAlloc := false, prevMini := false } := by
    rw [afterFree_of_big (M := P.merge [B]) (by rw [e1]; dsimp only; omega)]
    ext <;> simp [hna]
  rw [e2, e1]
  simp [coalesce, hloc, hpa, hP, hna]

theorem coalesce_three {NN : Blk} {post' : List Blk} (hpost : post = NN :: post')
    (hpa : B.prevAlloc = true) (hna : N.alloc = false) (hB16 : 16 ≤ B.size) (hN16 : 16 ≤ N.size) :
    coalesce H B.addr = (B.addr, ((H.erase N.addr N.size).withBlocks (pre ++
      B.merge [N] :: NN.afterFree (B.merge [N]) :: post')).push B.addr (B.merge [N]).size) := by
  have e1 : B.merge [N] = ⟨B.addr, B.size + N.size, false, true, B.prevMini⟩ := by
    simp [Blk.merge, hpa]
  rw [afterFree_of_big (M := B.merge [N]) (by rw [e1]; dsimp only; omega), e1]
  subst hpost
  simp [coalesce, hloc, hpa, hna]

theorem coalesce_four {P NN : Blk} {post' : List Blk} (hpost : post = NN :: post')
    (hpa : B.prevAlloc = false) (hP : pre.getLast? = some P) (hna : N.alloc = false)
    (hP16 : 16 ≤ P.size) (hB16 : 16 ≤ B.size) :
    coalesce H B.addr = (P.addr, (((H.erase P.addr P.size).erase N.addr N.size).withBlocks
      (pre.dropLast ++ P.merge [B, N] :: NN.afterFree (P.merge [B, N]) :: post')).push P.addr
        (P.merge [B, N]).size) := by
  have e1 : P.merge [B, N] = ⟨P.addr, P.size + B.size + N.size, false, P.prevAlloc,
      P.prevMini⟩ := by simp [Blk.merge, Nat.add_assoc]
  rw [afterFree_of_big (M := P.merge [B, N]) (by rw [e1]; dsimp only; omega), e1]
  subst hpost
  simp [coalesce, hloc, hpa, hP, hna]

end Cases

/-- The neighbourhood of the exception. `B` has a right neighbour `N`; its flags
describe its left neighbour, or the prologue when it is first; a free `N` is followed by an
allocated block, and a free left neighbour is preceded by one. -/
theorem WFBut.around {H : Heap} {B : Blk} (hW : WFBut H B) : ∃ pre N post,
    H.blocks = pre ++ B :: N :: post ∧ (∀ P ∈ pre.getLast?, FlagsOk P B) ∧
    (pre = [] → B.prevAlloc = true) ∧
    (N.alloc = false → ∃ NN post', post = NN :: post' ∧ NN.alloc = true) ∧
    (∀ P ∈ pre.getLast?, P.alloc = false → ∀ X ∈ pre.dropLast.getLast?, X.alloc = true) := by
  obtain ⟨pre, post, hbl⟩ := List.append_of_mem hW.mem
  have h16 := (hW.layout.free_size hW.mem hW.free).1
  obtain ⟨N, post, rfl⟩ := List.exists_cons_of_ne_nil (hW.layout.succ_exists hbl h16)
  have hnd := hW.layout.nodup
  rw [hbl] at hnd
  obtain ⟨-, hBnd, hdisj⟩ := List.nodup_append.1 hnd
  have hBpre : ∀ X ∈ pre, X ≠ B := fun X hX h => hdisj hX (h ▸ List.mem_cons_self _ _)
  have hBrest := (List.nodup_cons.1 hBnd).1
  have hfl := hW.flags
  have hap := hW.apart
  rw [hbl] at hfl hap
  obtain ⟨happre, hapB, -⟩ := chain'_unsplice hap
  refine ⟨pre, N, post, hbl, fun P hP => (chain'_unsplice hfl).2.2 P hP
    (hBpre P (List.mem_of_getLast?_eq_some hP)), fun h => (hW.first B (by simp [hbl, h])).1,
    fun hnf => ?_, fun P hP hPf X hX => ?_⟩
  · -- a free successor is followed by an allocated block
    have hN16 := (hW.layout.free_size (by simp [hbl]) hnf).1
    have hbl2 : H.blocks = (pre ++ [B]) ++ N :: post := by simp [hbl]
    obtain ⟨NN, post', rfl⟩ := List.exists_cons_of_ne_nil (hW.layout.succ_exists hbl2 hN16)
    refine ⟨NN, post', rfl, ?_⟩
    rcases (List.chain'_cons.1 (List.chain'_cons.1 hapB).2).1 with h | h | h | h
    · exact absurd (h ▸ List.mem_cons_self _ _) hBrest
    · exact absurd (h ▸ List.mem_cons_of_mem _ (List.mem_cons_self _ _)) hBrest
    · simp [hnf] at h
    · exact h
  · -- a free predecessor is preceded by an allocated block
    have hpre := List.dropLast_append_getLast? P hP
    rw [← hpre] at happre hBpre
    rcases (chain'_unsplice happre).2.2 X hX with h | h | h | h
    · exact absurd h (hBpre X (by simp [List.mem_of_getLast?_eq_some hX]))
    · exact absurd h (hBpre P (by simp))
    · exact h
    · simp [hPf] at h

/-- `coalesce_block` merges `B`'s free run. Under `WFBut H B`, each case of
`coalesce` is the merge `MergesRun` describes: the predecessor joins when it is free
(case two and four), the successor when it is free (case three and four). -/
theorem coalesce_merges {H : Heap} {B : Blk} (hW : WFBut H B) :
    MergesRun H B (coalesce H B.addr).1 (coalesce H B.addr).2 := by
  obtain ⟨pre, N, post, hbl, hflB, hfirst, hright, hleft⟩ := hW.around
  have h16 := (hW.layout.free_size hW.mem hW.free).1
  have hloc := hW.layout.locate hbl
  have hnd := hW.layout.nodup
  rw [hbl] at hnd
  obtain ⟨-, hBnd, hdisj⟩ := List.nodup_append.1 hnd
  have hBpre : ∀ X ∈ pre, X ≠ B := fun X hX h => hdisj hX (h ▸ List.mem_cons_self _ _)
  have hNB : N ≠ B := fun h => (List.nodup_cons.1 hBnd).1 (h ▸ List.mem_cons_self _ _)
  have hleftB : ∀ P ∈ pre.getLast?, P.alloc = B.prevAlloc := fun P hP => (hflB P hP).1.symm
  have hPmem : ∀ P ∈ pre.getLast?, P ∈ H.blocks := fun P hP => by
    rw [hbl, ← List.dropLast_append_getLast? P hP]; simp
  cases hpa : B.prevAlloc <;> cases hna : N.alloc
  · -- case four
    obtain ⟨P, hP⟩ := Option.ne_none_iff_exists'.1 fun h =>
      absurd (hfirst (List.getLast?_eq_none_iff.1 h)) (by simp [hpa])
    obtain ⟨NN, post', rfl, hNN⟩ := hright hna
    have hPf : P.alloc = false := (hleftB P hP).trans hpa
    rw [coalesce_four hloc rfl hpa hP hna (hW.layout.free_size (hPmem P hP) hPf).1 h16]
    refine ⟨pre.dropLast, P, [B, N], NN, post', ?_, by simp, ?_, hleft P hP hPf, hNN, rfl, ?_⟩
    · rw [hbl, ← List.dropLast_append_getLast? P hP]; simp
    · simp [hPf, hW.free, hna]
    · have hfilt : [P, B, N].filter (· ≠ B) = [P, N] := by
        simp [hBpre P (List.mem_of_getLast?_eq_some hP), hNB]
      rw [hfilt]; rfl
  · -- case two
    obtain ⟨P, hP⟩ := Option.ne_none_iff_exists'.1 fun h =>
      absurd (hfirst (List.getLast?_eq_none_iff.1 h)) (by simp [hpa])
    have hPf : P.alloc = false := (hleftB P hP).trans hpa
    rw [coalesce_two hloc hpa hP hna (hW.layout.free_size (hPmem P hP) hPf).1 h16]
    refine ⟨pre.dropLast, P, [B], N, post, ?_, by simp, ?_, hleft P hP hPf, hna, rfl, ?_⟩
    · rw [hbl, ← List.dropLast_append_getLast? P hP]; simp
    · simp [hPf, hW.free]
    · have hfilt : [P, B].filter (· ≠ B) = [P] := by
        simp [hBpre P (List.mem_of_getLast?_eq_some hP)]
      rw [hfilt]; rfl
  · -- case three
    obtain ⟨NN, post', rfl, hNN⟩ := hright hna
    rw [coalesce_three hloc rfl hpa hna h16 (hW.layout.free_size (by simp [hbl]) hna).1]
    refine ⟨pre, B, [N], NN, post', by simp [hbl], by simp, ?_, fun X hX => ?_, hNN, rfl, ?_⟩
    · simp [hW.free, hna]
    · rw [hleftB X hX, hpa]
    · have hfilt : [B, N].filter (· ≠ B) = [N] := by simp [hNB]
      rw [hfilt]; rfl
  · -- case one
    rw [coalesce_one hloc hpa hna]
    refine ⟨pre, B, [], N, post, by simp [hbl], by simp, by simp [hW.free],
      fun X hX => ?_, hna, rfl, ?_⟩
    · rw [hleftB X hX, hpa]
    · have e : B.merge [] = B := by ext <;> simp [Blk.merge, hW.free]
      have hfilt : [B].filter (· ≠ B) = [] := by simp
      rw [hfilt, e]; rfl

/-- Coalescing repairs the invariant. A merge of `B`'s free run, as `MergesRun` states
it, turns `WFBut H B` into `WF`. -/
theorem MergesRun.wf {H H' : Heap} {B : Blk} {r : Nat} (hW : WFBut H B)
    (h : MergesRun H B r H') : WF H' := by
  obtain ⟨preX, F, rest, N₀, postX, hbl, hB, hfree, hleft, hright, -, rfl⟩ := h
  have hrun : ∀ b ∈ (F :: rest).filter (· ≠ B), b ∈ H.blocks := fun b hb => by
    rw [hbl]
    exact List.mem_append_left _ (List.mem_append_right _ (List.mem_of_mem_filter hb))
  obtain ⟨hL₁, hun₁, hkeep₁, hpos₁⟩ := hW.lists.absorb hW.layout hrun
  refine hW.merge hbl hB hleft hright (by simp) (by simp) hL₁ (fun b hb => ?_)
    fun b hb hbn hm => hpos₁ b hb (fun h => hbn (List.mem_of_mem_filter h)) _ hm
  by_cases hbB : b = B
  · subst hbB; exact hkeep₁ _ hW.unlisted
  · exact hun₁ b (List.mem_filter.2 ⟨hb, by simpa using hbB⟩)

end SegAlloc.View
