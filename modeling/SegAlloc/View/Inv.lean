import SegAlloc.View.Alloc

/-!
# The invariant of the decoded heap

`Lists H` is the part of the free-list invariant that holds between any two
statements of the allocator: listed blocks are free blocks of the heap, of the
size their list is for, and no list repeats a block. `WF H` is the heap
invariant that holds between calls: the layout, the lists, the flags of every
block describing its left neighbour (`FlagsOk`), no two free neighbours
(`Apart`), and every free block listed. `WFBut H a` is the same with block `a`
the one exception: `a` is free and on no list, its neighbours may be free, and
its right neighbour's flags may be stale. It is what `free` and `split_block`
leave and what `coalesce_block` repairs.
-/

namespace SegAlloc.View

open SegAlloc.Machine SegAlloc.Model

/-- Listed blocks are free blocks of the heap, of the size their list is for, and no list
repeats a block. -/
structure Lists (H : Heap) : Prop where
  miniNodup : H.mini.Nodup
  segNodup : ∀ i, (H.seg i).Nodup
  mini : ∀ x ∈ H.mini, ∃ b ∈ H.blocks, b.addr = x ∧ b.alloc = false ∧ b.size = minBlockSize
  seg : ∀ i, ∀ x ∈ H.seg i, ∃ b ∈ H.blocks,
    b.addr = x ∧ b.alloc = false ∧ b.size ≠ minBlockSize ∧ findClass b.size = i

/-- `x` is on no free list. -/
def Unlisted (H : Heap) (x : Nat) : Prop := x ∉ H.mini ∧ ∀ i, x ∉ H.seg i

section Lists

variable {H : Heap}

/-- Blocks on the mini list are 16 bytes long. -/
theorem Lists.mini_blk (hL : Lists H) {x : Nat} (hx : x ∈ H.mini) :
    ∃ b ∈ H.blocks, b.addr = x ∧ b.alloc = false ∧ b.span = 16 := by
  obtain ⟨b, hb, hba, hbf, hbs⟩ := hL.mini x hx
  exact ⟨b, hb, hba, hbf, by rw [Blk.span_eq (by simp [hbs, minBlockSize, dsize, wsize]), hbs]; rfl⟩

/-- Blocks on buckets have at least 32 bytes. -/
theorem Lists.seg_blk (hlay : Layout H) (hL : Lists H) {i x : Nat} (hx : x ∈ H.seg i) :
    ∃ b ∈ H.blocks, b.addr = x ∧ b.alloc = false ∧ 32 ≤ b.size ∧ b.span = b.size ∧
      findClass b.size = i := by
  obtain ⟨b, hb, hba, hbf, hb16, hc⟩ := hL.seg i x hx
  have := hlay.free_size hb hbf
  simp only [minBlockSize, dsize, wsize] at hb16
  exact ⟨b, hb, hba, hbf, by omega, Blk.span_eq (by omega), hc⟩

/-- A node is on one list only: the one its block's size selects. -/
theorem Lists.seg_class (hlay : Layout H) (hL : Lists H) {i j x : Nat} (hi : x ∈ H.seg i) (hj : x ∈ H.seg j) : i = j := by
  obtain ⟨b, hb, rfl, -, -, -, rfl⟩ := hL.seg_blk hlay hi
  obtain ⟨b', hb', he, -, -, -, rfl⟩ := hL.seg_blk hlay hj
  rw [hlay.eq_of_addr hb' hb he]

theorem Lists.not_mini_of_seg (hlay : Layout H) (hL : Lists H) {i x : Nat} (hi : x ∈ H.seg i) : x ∉ H.mini := fun hm => by
  obtain ⟨b, hb, rfl, -, h32, -⟩ := hL.seg_blk hlay hi
  obtain ⟨b', hb', he, -, hs⟩ := hL.mini b.addr hm
  rw [hlay.eq_of_addr hb' hb he] at hs
  simp only [minBlockSize, dsize, wsize] at hs; omega

/-- The lists read the blocks and the list heads only. -/
theorem Lists.of_eq {H' : Heap} (h : Lists H) (hb : H'.blocks = H.blocks) (hm : H'.mini = H.mini)
    (hs : H'.seg = H.seg) : Lists H' :=
  ⟨hm ▸ h.miniNodup, hs ▸ h.segNodup, by rw [hm, hb]; exact h.mini, by rw [hs, hb]; exact h.seg⟩

/-- An allocated block is on no list. -/
theorem Lists.unlisted_of_alloc (hlay : Layout H) (hL : Lists H) {X : Blk} (hX : X ∈ H.blocks)
    (ha : X.alloc = true) : Unlisted H X.addr := by
  refine ⟨fun h => ?_, fun i h => ?_⟩
  · obtain ⟨b, hb, he, hbf, -⟩ := hL.mini _ h
    rw [hlay.eq_of_addr hb hX he, ha] at hbf; cases hbf
  · obtain ⟨b, hb, he, hbf, -⟩ := hL.seg i _ h
    rw [hlay.eq_of_addr hb hX he, ha] at hbf; cases hbf

theorem Lists.push (hL : Lists H) {B : Blk} (hB : B ∈ H.blocks) (hf : B.alloc = false)
    (hu : Unlisted H B.addr) : Lists (H.push B.addr B.size) := by
  unfold Heap.push
  split_ifs with hm
  · refine { hL with miniNodup := List.nodup_cons.2 ⟨hu.1, hL.miniNodup⟩, mini := ?_ }
    intro x hx
    rcases List.mem_cons.1 hx with rfl | hx
    · exact ⟨B, hB, rfl, hf, hm⟩
    · exact hL.mini x hx
  · refine { hL with segNodup := fun i => ?_, seg := fun i x hx => ?_ }
    · simp only [Function.update_apply]; split_ifs with hi
      · exact List.nodup_cons.2 ⟨hu.2 _, hL.segNodup _⟩
      · exact hL.segNodup i
    · simp only [Function.update_apply] at hx; split_ifs at hx with hi
      · subst hi
        rcases List.mem_cons.1 hx with rfl | hx
        · exact ⟨B, hB, rfl, hf, hm, rfl⟩
        · exact hL.seg _ x hx
      · exact hL.seg i x hx

theorem Lists.erase (hL : Lists H) (x size : Nat) : Lists (H.erase x size) := by
  unfold Heap.erase
  split_ifs
  · exact { hL with
      miniNodup := hL.miniNodup.erase x
      mini := fun y hy => hL.mini y (List.mem_of_mem_erase hy) }
  · refine { hL with segNodup := fun i => ?_, seg := fun i y hy => ?_ }
    · simp only [Function.update_apply]; split_ifs with hi
      · exact (hL.segNodup _).erase x
      · exact hL.segNodup i
    · simp only [Function.update_apply] at hy; split_ifs at hy with hi
      · subst hi; exact hL.seg _ y (List.mem_of_mem_erase hy)
      · exact hL.seg i y hy

theorem Lists.replace (hL : Lists H) {pre mid post mid' : List Blk}
    (hbl : H.blocks = pre ++ mid ++ post) (hun : ∀ b ∈ mid, Unlisted H b.addr) :
    Lists (H.withBlocks (pre ++ mid' ++ post)) := by
  have hkeep : ∀ b ∈ H.blocks, b ∉ mid → b ∈ pre ++ mid' ++ post := fun b hb hbm => by
    rw [hbl] at hb
    simp only [List.mem_append] at hb ⊢
    tauto
  refine { hL with
    mini := fun x hx => ?_
    seg := fun i x hx => ?_ }
  · obtain ⟨b, hb, rfl, h⟩ := hL.mini x hx
    exact ⟨b, hkeep b hb fun hbm => (hun b hbm).1 hx, rfl, h⟩
  · obtain ⟨b, hb, rfl, h⟩ := hL.seg i x hx
    exact ⟨b, hkeep b hb fun hbm => (hun b hbm).2 i hx, rfl, h⟩

/-- Erasing `y` keeps every other address on its list. -/
theorem mem_listFor_erase {x y sz size : Nat} (hne : x ≠ y) :
    x ∈ (H.erase y sz).listFor size ↔ x ∈ H.listFor size := by
  unfold Heap.erase Heap.listFor
  split_ifs <;> simp only [Function.update_apply] <;> (try split_ifs) <;>
    simp_all [List.mem_erase_of_ne hne]

/-- Pushing `y` keeps every address on its list. -/
theorem mem_listFor_push {x y sz size : Nat} (h : x ∈ H.listFor size) :
    x ∈ (H.push y sz).listFor size := by
  unfold Heap.push Heap.listFor at *
  split_ifs at * <;> simp only [Function.update_apply] <;> (try split_ifs) <;> simp_all

theorem mem_listFor_push_self (y sz : Nat) : y ∈ (H.push y sz).listFor sz := by
  unfold Heap.push Heap.listFor
  split_ifs <;> simp_all

theorem Unlisted.erase {x : Nat} (h : Unlisted H x) (y sz : Nat) : Unlisted (H.erase y sz) x := by
  unfold Heap.erase
  split_ifs
  · exact ⟨fun hx => h.1 (List.mem_of_mem_erase hx), h.2⟩
  · refine ⟨h.1, fun i hx => ?_⟩
    simp only [Function.update_apply] at hx
    split_ifs at hx
    · exact h.2 _ (List.mem_of_mem_erase hx)
    · exact h.2 i hx

/-- After `remove_free`, a block is on no list. -/
theorem Lists.unlisted_erase (hlay : Layout H) (hL : Lists H) {b : Blk} (hb : b ∈ H.blocks) :
    Unlisted (H.erase b.addr b.size) b.addr := by
  -- a list holding `b` is the one for its size
  have hmini : b.addr ∈ H.mini → b.size = minBlockSize := fun h => by
    obtain ⟨b', hb', he, -, hs⟩ := hL.mini _ h
    rwa [hlay.eq_of_addr hb' hb he] at hs
  have hseg : ∀ i, b.addr ∈ H.seg i → b.size ≠ minBlockSize ∧ findClass b.size = i := fun i h => by
    obtain ⟨b', hb', he, -, hs, hc⟩ := hL.seg i _ h
    rw [hlay.eq_of_addr hb' hb he] at hs hc
    exact ⟨hs, hc⟩
  unfold Heap.erase
  split_ifs with h16
  · exact ⟨hL.miniNodup.not_mem_erase, fun i hi => (hseg i hi).1 h16⟩
  · refine ⟨fun hi => h16 (hmini hi), fun i hi => ?_⟩
    simp only [Function.update_apply] at hi
    split_ifs at hi with hc
    · exact (hL.segNodup _).not_mem_erase hi
    · exact hc (hseg i hi).2.symm

end Lists

/-- The flags of `Y` describe its left neighbour `X`. -/
def FlagsOk (X Y : Blk) : Prop := Y.prevAlloc = X.alloc ∧ Y.prevMini = (X.size == minBlockSize)

/-- Two neighbours are not both free. -/
def Apart (X Y : Blk) : Prop := X.alloc = true ∨ Y.alloc = true

/-- The flags of the first block describe the prologue, which is allocated and not mini. -/
def FirstOk (bs : List Blk) : Prop := ∀ b ∈ bs.head?, b.prevAlloc = true ∧ b.prevMini = false

/-- The heap invariant between calls. -/
structure WF (H : Heap) : Prop where
  layout : Layout H
  lists : Lists H
  first : FirstOk H.blocks
  flags : H.blocks.Chain' FlagsOk
  apart : H.blocks.Chain' Apart
  listed : ∀ b ∈ H.blocks, b.alloc = false → b.addr ∈ H.listFor b.size

/-- The heap invariant with one exception: the free block `B` is on no list, its
neighbours may be free, and the flags of the block after it may be stale. -/
structure WFBut (H : Heap) (B : Blk) : Prop where
  layout : Layout H
  lists : Lists H
  mem : B ∈ H.blocks
  free : B.alloc = false
  unlisted : Unlisted H B.addr
  first : FirstOk H.blocks
  flags : H.blocks.Chain' fun X Y => X ≠ B → FlagsOk X Y
  apart : H.blocks.Chain' fun X Y => X = B ∨ Y = B ∨ Apart X Y
  listed : ∀ b ∈ H.blocks, b.alloc = false → b ≠ B → b.addr ∈ H.listFor b.size

theorem locate_eq {a : Nat} {pre post : List Blk} {B : Blk} (hpre : ∀ b ∈ pre, b.addr ≠ a)
    (hB : B.addr = a) : locate a (pre ++ B :: post) = some (pre, B, post) := by
  have hp : ∀ b ∈ pre, (b.addr != a) = true := fun b hb => by simpa using hpre b hb
  unfold locate
  rw [List.span_eq_take_drop, List.takeWhile_append_of_pos hp, List.dropWhile_append_of_pos hp,
    List.takeWhile_cons_of_neg (by simp [hB]), List.dropWhile_cons_of_neg (by simp [hB])]
  simp

/-- In a laid-out heap, the block at `B`'s address is found where `B` is. -/
theorem Layout.locate {H : Heap} (h : Layout H) {pre post : List Blk} {B : Blk}
    (hbl : H.blocks = pre ++ B :: post) : locate B.addr H.blocks = some (pre, B, post) := by
  have hnd := h.addr_nodup
  rw [hbl, List.map_append, List.map_cons, List.nodup_append] at hnd
  rw [hbl]
  exact locate_eq (fun b hb he => hnd.2.2 (List.mem_map_of_mem _ hb) (by simp [he])) rfl

section Chain

variable {α : Type} {R : α → α → Prop}

/-- A chain over `l₁ ++ x :: l₂` from its parts and the two seams. -/
theorem chain'_splice {l₁ l₂ : List α} {x : α} (h₁ : l₁.Chain' R) (h₂ : (x :: l₂).Chain' R)
    (hx : ∀ z ∈ l₁.getLast?, R z x) : (l₁ ++ x :: l₂).Chain' R :=
  List.chain'_append.2 ⟨h₁, h₂, fun z hz y hy => by
    simp only [List.head?_cons, Option.mem_def, Option.some.injEq] at hy
    exact hy ▸ hx z hz⟩

/-- The parts of a chain over `l₁ ++ x :: l₂`. -/
theorem chain'_unsplice {l₁ l₂ : List α} {x : α} (h : (l₁ ++ x :: l₂).Chain' R) :
    l₁.Chain' R ∧ (x :: l₂).Chain' R ∧ ∀ z ∈ l₁.getLast?, R z x := by
  obtain ⟨h₁, h₂, h₃⟩ := List.chain'_append.1 h
  exact ⟨h₁, h₂, fun z hz => h₃ z hz x rfl⟩

/-- A chain with exceptions is a plain chain on a list that avoids them. -/
theorem chain'_of_avoid {S : α → α → Prop} {l : List α} (h : l.Chain' R)
    (hRS : ∀ x ∈ l, ∀ y ∈ l, R x y → S x y) : l.Chain' S :=
  (List.Chain'.iff_mem.1 h).imp fun _ _ ⟨hx, hy, hr⟩ => hRS _ hx _ hy hr

end Chain

end SegAlloc.View
