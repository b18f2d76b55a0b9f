import SegAlloc.Model.Api
import Mathlib.Data.List.Chain
import Mathlib.Data.List.Nodup

/-!
# The heap as its metadata describes it

A `Blk` is what the header word at `addr` says: size, allocation status and
the two flags about the block before it. A `Heap` lists the blocks from
`heap_start` to the epilogue, which comes last, and the free lists as lists of
block addresses in link order, next to the `memlib` side. `Layout` says the
blocks tile `[lo + 8, brk - 8)` and the epilogue sits at `brk - 8`.

Every word the metadata occupies (header, footer, list links) lies inside its
block's `span`, and distinct blocks have disjoint spans (`Layout.sep`): this
is the separation every frame argument of the development rests on.
-/

namespace SegAlloc.View

open SegAlloc.Machine SegAlloc.Model

/-- A block as its header word describes it. -/
@[ext] structure Blk where
  addr : Nat
  size : Nat
  alloc : Bool
  prevAlloc : Bool
  prevMini : Bool
deriving DecidableEq, Repr

namespace Blk

/-- The header word of the block. -/
def header (b : Blk) : Nat := packAll b.size b.alloc b.prevAlloc b.prevMini

/-- The address of the footer, `header_to_footer(block)`. -/
def footer (b : Blk) : Nat := b.addr + b.size - 8

/-- `write_pack` writes a footer for free blocks that are not mini. -/
def hasFooter (b : Blk) : Bool := !b.alloc && b.size != minBlockSize

/-- The bytes the block owns: its size, or the one word of the epilogue. -/
def span (b : Blk) : Nat := max b.size 8

/-- The address right after the block, `find_next(block)`. -/
def next (b : Blk) : Nat := b.addr + b.size

theorem header_lt {b : Blk} (h16 : b.size % 16 = 0) (hlt : b.size < 2 ^ 64) :
    b.header < 2 ^ 64 := packAll_lt _ _ _ h16 hlt

theorem alloc_of_hasFooter {b : Blk} (h : b.hasFooter = true) : b.alloc = false := by
  simp only [hasFooter, Bool.and_eq_true, Bool.not_eq_true'] at h; exact h.1

theorem span_eq {b : Blk} (h : 8 ≤ b.size) : b.span = b.size := Nat.max_eq_left h

theorem span_of_size_zero {b : Blk} (h : b.size = 0) : b.span = 8 := by simp [span, h]

end Blk

/-- The allocator state as its metadata describes it. -/
structure Heap where
  lib : MemLib
  blocks : List Blk
  mini : List Nat
  seg : Nat → List Nat

/-- The heap with its block sequence replaced. -/
def Heap.withBlocks (H : Heap) (bs : List Blk) : Heap := { H with blocks := bs }

@[simp] theorem Heap.withBlocks_blocks (H : Heap) (bs : List Blk) : (H.withBlocks bs).blocks = bs :=
  rfl
@[simp] theorem Heap.withBlocks_lib (H : Heap) (bs : List Blk) : (H.withBlocks bs).lib = H.lib := rfl
@[simp] theorem Heap.withBlocks_mini (H : Heap) (bs : List Blk) : (H.withBlocks bs).mini = H.mini :=
  rfl
@[simp] theorem Heap.withBlocks_seg (H : Heap) (bs : List Blk) : (H.withBlocks bs).seg = H.seg := rfl
@[simp] theorem Heap.withBlocks_withBlocks (H : Heap) (bs bs' : List Blk) :
    (H.withBlocks bs).withBlocks bs' = H.withBlocks bs' := rfl
theorem Heap.withBlocks_self (H : Heap) : H.withBlocks H.blocks = H := rfl

/-- Blocks laid end to end from `a` to `c`, each of size at least 16 and a multiple
of 16. -/
def Seg : Nat → List Blk → Nat → Prop
  | a, [], c => a = c
  | a, b :: bs, c => b.addr = a ∧ 16 ≤ b.size ∧ b.size % 16 = 0 ∧ Seg (a + b.size) bs c

/-- The blocks tile the heap from `lo + 8`, and the last is the epilogue at `brk - 8`. -/
def Layout (H : Heap) : Prop :=
  ∃ real epi, H.blocks = real ++ [epi] ∧ Seg (H.lib.lo + 8) real epi.addr ∧
    epi.size = 0 ∧ epi.alloc = true ∧ epi.addr + 8 = H.lib.brk

@[simp] theorem seg_nil {a c : Nat} : Seg a [] c ↔ a = c := Iff.rfl

@[simp] theorem seg_cons {a c : Nat} {b : Blk} {bs : List Blk} :
    Seg a (b :: bs) c ↔ b.addr = a ∧ 16 ≤ b.size ∧ b.size % 16 = 0 ∧ Seg (a + b.size) bs c :=
  Iff.rfl

theorem seg_append {a c : Nat} :
    ∀ {xs ys : List Blk}, Seg a (xs ++ ys) c ↔ ∃ m, Seg a xs m ∧ Seg m ys c
  | [], ys => by simp
  | x :: xs, ys => by
    simp only [List.cons_append, seg_cons, seg_append]
    constructor
    · rintro ⟨h1, h2, h3, m, h4, h5⟩; exact ⟨m, ⟨h1, h2, h3, h4⟩, h5⟩
    · rintro ⟨m, ⟨h1, h2, h3, h4⟩, h5⟩; exact ⟨h1, h2, h3, m, h4, h5⟩

/-- Every block of a segment lies inside it. -/
theorem Seg.bounds {a c : Nat} : ∀ {bs : List Blk}, Seg a bs c →
    a ≤ c ∧ ∀ b ∈ bs, a ≤ b.addr ∧ b.addr + b.size ≤ c ∧ 16 ≤ b.size ∧ b.size % 16 = 0
  | [], h => by simp only [seg_nil] at h; simp [h]
  | b :: bs, ⟨h1, h2, h3, h4⟩ => by
    obtain ⟨hle, hall⟩ := Seg.bounds h4
    refine ⟨by omega, ?_⟩
    intro x hx
    rcases List.mem_cons.mp hx with rfl | hx
    · omega
    · have := hall x hx; omega

/-- Distinct blocks of a segment do not overlap. -/
theorem Seg.sep {a c : Nat} : ∀ {bs : List Blk}, Seg a bs c → ∀ x ∈ bs, ∀ y ∈ bs,
    x.addr ≠ y.addr → x.addr + x.size ≤ y.addr ∨ y.addr + y.size ≤ x.addr
  | [], _ => by simp
  | b :: bs, ⟨h1, h2, h3, h4⟩ => by
    have hb := (Seg.bounds h4).2
    intro x hx y hy hne
    rcases List.mem_cons.mp hx with hxb | hx' <;> rcases List.mem_cons.mp hy with hyb | hy'
    · exact absurd (hxb.trans hyb.symm ▸ rfl) hne
    · have := hb y hy'; subst hxb; omega
    · have := hb x hx'; subst hyb; omega
    · exact Seg.sep h4 x hx' y hy' hne

/-- Blocks of a segment starting at an address `≡ 8 (mod 16)` all sit at such addresses. -/
theorem Seg.addr_mod {a c : Nat} (ha : a % 16 = 8) : ∀ {bs : List Blk}, Seg a bs c →
    c % 16 = 8 ∧ ∀ b ∈ bs, b.addr % 16 = 8
  | [], h => by simp only [seg_nil] at h; simp [← h, ha]
  | b :: bs, ⟨h1, h2, h3, h4⟩ => by
    obtain ⟨hc, hall⟩ := Seg.addr_mod (by omega) h4
    refine ⟨hc, fun x hx => ?_⟩
    rcases List.mem_cons.mp hx with rfl | hx
    · omega
    · exact hall x hx

/-- The addresses of a segment increase strictly, so no address occurs twice. -/
theorem Seg.addr_nodup {a c : Nat} : ∀ {bs : List Blk}, Seg a bs c → (bs.map (·.addr)).Nodup
  | [], _ => List.nodup_nil
  | b :: bs, ⟨h1, h2, _, h4⟩ => by
    refine List.nodup_cons.mpr ⟨fun hm => ?_, Seg.addr_nodup h4⟩
    obtain ⟨x, hx, hxa⟩ := List.mem_map.mp hm
    have := (Seg.bounds h4).2 x hx
    simp only at hxa
    omega

/-- A segment covers its range: every address in it lies in one of its blocks. -/
theorem Seg.cover {a c : Nat} : ∀ {bs : List Blk}, Seg a bs c → ∀ x, a ≤ x → x < c →
    ∃ b ∈ bs, b.addr ≤ x ∧ x < b.addr + b.size
  | [], h, x, h1, h2 => by simp only [seg_nil] at h; omega
  | b :: bs, ⟨h1, _, _, h4⟩, x, hx1, hx2 => by
    by_cases hx : x < a + b.size
    · exact ⟨b, List.mem_cons_self _ _, by omega, by omega⟩
    · obtain ⟨y, hy, h⟩ := Seg.cover h4 x (by omega) hx2
      exact ⟨y, List.mem_cons_of_mem _ hy, h⟩

/-- A segment's end is determined by its start and its blocks. -/
theorem Seg.end_eq {a c c' : Nat} : ∀ {bs : List Blk}, Seg a bs c → Seg a bs c' → c = c'
  | [], h, h' => by simp only [seg_nil] at h h'; omega
  | _ :: _, ⟨_, _, _, h⟩, ⟨_, _, _, h'⟩ => Seg.end_eq h h'

/-- A segment spans the sum of its sizes, a multiple of 16. -/
theorem Seg.sum {a c : Nat} : ∀ {bs : List Blk}, Seg a bs c →
    c = a + (bs.map (·.size)).sum ∧ (bs.map (·.size)).sum % 16 = 0
  | [], h => by simp only [seg_nil] at h; simp [h]
  | b :: bs, ⟨_, _, h3, h4⟩ => by
    obtain ⟨h5, h6⟩ := Seg.sum h4
    simp only [List.map_cons, List.sum_cons]
    omega

section Layout

variable {H : Heap}

/-- The layout reads the blocks and the heap bounds only. -/
theorem Layout.of_eq {H' : Heap} (h : Layout H) (hb : H'.blocks = H.blocks) (hl : H'.lib = H.lib) :
    Layout H' := by
  unfold Layout at h ⊢
  rwa [hb, hl]

/-- The layout reads the blocks and the bounds `lo` and `brk` of the heap only. -/
theorem Layout.of_bounds {H' : Heap} (h : Layout H) (hb : H'.blocks = H.blocks)
    (hlo : H'.lib.lo = H.lib.lo) (hbrk : H'.lib.brk = H.lib.brk) : Layout H' := by
  unfold Layout at h ⊢
  rwa [hb, hlo, hbrk]

theorem Layout.blocks_eq (h : Layout H) :
    ∃ real epi, H.blocks = real ++ [epi] ∧ Seg (H.lib.lo + 8) real epi.addr ∧
      epi.size = 0 ∧ epi.alloc = true ∧ epi.addr + 8 = H.lib.brk := h

/-- Every block of the heap lies in `[lo + 8, brk)`; real blocks have sizes of at least 16
and multiples of 16, and the only block of size 0 is the epilogue, the last. -/
theorem Layout.mem (h : Layout H) {b : Blk} (hb : b ∈ H.blocks) :
    H.lib.lo + 8 ≤ b.addr ∧ b.addr + b.span + 8 ≤ H.lib.brk + 8 ∧
      (b.size = 0 ∧ b.alloc = true ∨ 16 ≤ b.size ∧ b.size % 16 = 0) := by
  obtain ⟨real, epi, he, hs, h0, ha, hbrk⟩ := h
  have hsb := Seg.bounds hs
  rw [he, List.mem_append, List.mem_singleton] at hb
  rcases hb with hb | rfl
  · have := hsb.2 b hb
    rw [Blk.span_eq (by omega)]
    omega
  · rw [Blk.span_of_size_zero h0]
    have := hsb.1
    exact ⟨by omega, by omega, .inl ⟨h0, ha⟩⟩

/-- A real block ends at or before the epilogue. -/
theorem Layout.end_le (h : Layout H) {b : Blk} (hb : b ∈ H.blocks) (h0 : b.size ≠ 0) :
    b.addr + b.size + 8 ≤ H.lib.brk := by
  obtain ⟨real, epi, he, hs, h0', -, hbrk⟩ := h
  rw [he, List.mem_append, List.mem_singleton] at hb
  rcases hb with hb | rfl
  · have := (Seg.bounds hs).2 b hb
    omega
  · exact absurd h0' h0

/-- A free block is a real block: at least 16 bytes, a multiple of 16. -/
theorem Layout.free_size (hlay : Layout H) {X : Blk} (hX : X ∈ H.blocks)
    (hf : X.alloc = false) : 16 ≤ X.size ∧ X.size % 16 = 0 := by
  rcases (hlay.mem hX).2.2 with ⟨_, ha⟩ | h
  · simp [hf] at ha
  · exact h

/-- A block of a heap below `2 ^ 64` has a size that fits a word. -/
theorem Layout.size_lt (h : Layout H) (hbrk : H.lib.brk ≤ 2 ^ 64) {b : Blk} (hb : b ∈ H.blocks) :
    b.size < 2 ^ 64 := by
  have := h.mem hb
  have : b.size ≤ b.span := le_max_left _ _
  omega

/-- Separation. Distinct blocks of the heap own disjoint byte ranges. -/
theorem Layout.sep (h : Layout H) {x y : Blk} (hx : x ∈ H.blocks) (hy : y ∈ H.blocks)
    (hne : x.addr ≠ y.addr) : x.addr + x.span ≤ y.addr ∨ y.addr + y.span ≤ x.addr := by
  obtain ⟨real, epi, he, hs, h0, _, _⟩ := h
  have hsb := (Seg.bounds hs).2
  rw [he, List.mem_append, List.mem_singleton] at hx hy
  rcases hx with hx | rfl <;> rcases hy with hy | rfl
  · have := Seg.sep hs x hx y hy hne; have := hsb x hx; have := hsb y hy
    rw [Blk.span_eq (by omega), Blk.span_eq (by omega)]
    omega
  · have := hsb x hx
    rw [Blk.span_eq (b := x) (by omega), Blk.span_of_size_zero h0]; omega
  · have := hsb y hy
    rw [Blk.span_eq (b := y) (by omega), Blk.span_of_size_zero h0]; omega
  · exact absurd rfl hne

theorem Layout.addr_mod (h : Layout H) (hlo : H.lib.lo % 16 = 0) {b : Blk}
    (hb : b ∈ H.blocks) : b.addr % 16 = 8 := by
  obtain ⟨real, epi, he, hs, _, _, _⟩ := h
  have hm := Seg.addr_mod (by omega) hs
  rw [he, List.mem_append, List.mem_singleton] at hb
  rcases hb with hb | rfl
  · exact hm.2 b hb
  · exact hm.1

/-- No two blocks of the heap share an address. -/
theorem Layout.addr_nodup (h : Layout H) : (H.blocks.map (·.addr)).Nodup := by
  obtain ⟨real, epi, hbl, hs, _, _, _⟩ := h
  rw [hbl, List.map_append, List.nodup_append]
  refine ⟨Seg.addr_nodup hs, List.nodup_singleton _, fun x hx hy => ?_⟩
  obtain ⟨b, hb, rfl⟩ := List.mem_map.1 hx
  simp only [List.map_cons, List.map_nil, List.mem_singleton] at hy
  have := (Seg.bounds hs).2 b hb
  omega

theorem Layout.nodup (h : Layout H) : H.blocks.Nodup := h.addr_nodup.of_map _

/-- A block of the heap is determined by its address. -/
theorem Layout.eq_of_addr (h : Layout H) {x y : Blk} (hx : x ∈ H.blocks) (hy : y ∈ H.blocks)
    (he : x.addr = y.addr) : x = y := by
  obtain ⟨real, epi, hbl, hs, _, _, _⟩ := h
  have hnd := Seg.addr_nodup hs
  have hb := (Seg.bounds hs).2
  rw [hbl, List.mem_append, List.mem_singleton] at hx hy
  rcases hx with hx | rfl <;> rcases hy with hy | rfl
  · exact List.inj_on_of_nodup_map hnd hx hy he
  · have := hb x hx; omega
  · have := hb y hy; omega
  · rfl

/-- Cut around a nonempty segment `mid` from `a` to `c`, the heap is the blocks up to `a`,
`mid`, the blocks from `c` to the epilogue, and the epilogue. -/
theorem Layout.split (h : Layout H) {pre mid post : List Blk} {a c : Nat}
    (hbl : H.blocks = pre ++ mid ++ post) (hmid : Seg a mid c) (hne : mid ≠ []) :
    ∃ post' epi, post = post' ++ [epi] ∧ Seg (H.lib.lo + 8) pre a ∧ Seg c post' epi.addr ∧
      epi.size = 0 ∧ epi.alloc = true ∧ epi.addr + 8 = H.lib.brk := by
  obtain ⟨real, epi, he, hs, h0, ha, hbrk⟩ := h
  rcases List.eq_nil_or_concat post with rfl | ⟨post', last, rfl⟩
  · -- `mid` would end with the epilogue, whose size is 0
    obtain ⟨L, b, rfl⟩ := (List.eq_nil_or_concat mid).resolve_left hne
    rw [List.concat_eq_append, List.append_nil, ← List.append_assoc, he] at hbl
    obtain ⟨-, hb⟩ := List.append_inj' hbl.symm rfl
    obtain ⟨_, -, h'⟩ := seg_append.1 (List.concat_eq_append L b ▸ hmid)
    simp only [seg_cons, seg_nil, List.singleton_inj.1 hb] at h'
    omega
  · rw [List.concat_eq_append, ← List.append_assoc, he] at hbl
    obtain ⟨hreal, hlast⟩ := List.append_inj' hbl rfl
    obtain rfl := List.singleton_inj.1 hlast
    rw [hreal] at hs
    obtain ⟨c', ⟨a', hpre, hm'⟩, hpost⟩ := by simpa only [seg_append] using hs
    obtain ⟨b, mid, rfl⟩ := List.exists_cons_of_ne_nil hne
    have ha' : a' = a := hm'.1.symm.trans hmid.1
    subst ha'
    obtain rfl := Seg.end_eq hm' hmid
    exact ⟨post', epi, List.concat_eq_append _ _, hpre, hpost, h0, ha, hbrk⟩

/-- A run of blocks followed by a block `N` is a segment ending at `N`. -/
theorem Layout.seg_run (h : Layout H) {pre mid post : List Blk} {F N : Blk}
    (hbl : H.blocks = pre ++ (F :: mid) ++ N :: post) : Seg F.addr (F :: mid) N.addr := by
  obtain ⟨real, epi, he, hs, -, -, -⟩ := h
  rw [he] at hbl
  rcases List.eq_nil_or_concat post with rfl | ⟨post', last, rfl⟩
  · obtain ⟨rfl, hN⟩ := List.append_inj' hbl rfl
    obtain rfl := List.singleton_inj.1 hN
    obtain ⟨a', -, hm⟩ := seg_append.1 hs
    exact hm.1 ▸ hm
  · rw [List.concat_eq_append, ← List.cons_append, ← List.append_assoc] at hbl
    obtain ⟨rfl, hN⟩ := List.append_inj' hbl rfl
    obtain rfl := List.singleton_inj.1 hN
    obtain ⟨c', hm, hpost⟩ := seg_append.1 hs
    obtain ⟨a', -, hm⟩ := seg_append.1 hm
    exact hpost.1 ▸ hm.1 ▸ hm

/-- Re-tiling. Replacing a nonempty segment by another over the same range keeps the
layout. -/
theorem Layout.retile (h : Layout H) {pre mid post mid' : List Blk} {a c : Nat}
    (hbl : H.blocks = pre ++ mid ++ post) (hmid : Seg a mid c) (hne : mid ≠ [])
    (hmid' : Seg a mid' c) : Layout (H.withBlocks (pre ++ mid' ++ post)) := by
  obtain ⟨post', epi, rfl, hpre, hpost, h0, ha, hbrk⟩ := h.split hbl hmid hne
  exact ⟨pre ++ mid' ++ post', epi, by simp [Heap.withBlocks],
    seg_append.2 ⟨c, seg_append.2 ⟨a, hpre, hmid'⟩, hpost⟩, h0, ha, hbrk⟩

/-- A block's right neighbour starts where it ends. -/
theorem Layout.next_addr (h : Layout H) {pre post : List Blk} {X Y : Blk}
    (hbl : H.blocks = pre ++ X :: Y :: post) : Y.addr = X.addr + X.size := by
  have hbl' : H.blocks = pre ++ [X] ++ Y :: post := by simpa using hbl
  exact (h.seg_run hbl').2.2.2.symm

/-- The block of size 0 is the last one. -/
theorem Layout.last_of_size_zero (h : Layout H) {pre post : List Blk} {X : Blk}
    (hbl : H.blocks = pre ++ X :: post) (h0 : X.size = 0) : post = [] := by
  obtain ⟨real, epi, he, hs, -, -, -⟩ := h
  rcases List.eq_nil_or_concat post with rfl | ⟨post', last, rfl⟩
  · rfl
  · rw [List.concat_eq_append, ← List.cons_append, ← List.append_assoc, he] at hbl
    obtain ⟨hreal, -⟩ := List.append_inj' hbl rfl
    have := (Seg.bounds hs).2 X (by simp [hreal])
    omega

/-- A real block has a right neighbour. -/
theorem Layout.succ_exists (h : Layout H) {pre post : List Blk} {X : Blk}
    (hbl : H.blocks = pre ++ X :: post) (h16 : 16 ≤ X.size) : post ≠ [] := by
  rintro rfl
  obtain ⟨real, epi, he, -, h0, -, -⟩ := h
  rw [hbl] at he
  obtain ⟨-, hX⟩ := List.append_inj' he rfl
  rw [List.singleton_inj.1 hX] at h16
  omega

/-- Re-heading. Changing the flags of one block keeps the layout, as long as the
epilogue stays allocated. -/
theorem Layout.reheader (h : Layout H) {pre post : List Blk} {X X' : Blk}
    (hbl : H.blocks = pre ++ X :: post) (ha : X'.addr = X.addr) (hs : X'.size = X.size)
    (hal : X'.alloc = X.alloc ∨ 16 ≤ X.size) : Layout (H.withBlocks (pre ++ X' :: post)) := by
  have hX : X ∈ H.blocks := by simp [hbl]
  rcases (h.mem hX).2.2 with ⟨h0, hXa⟩ | ⟨h16, h16'⟩
  · -- the epilogue
    obtain rfl := h.last_of_size_zero hbl h0
    obtain ⟨real, epi, he, hseg, -, -, hbrk⟩ := h
    rw [hbl] at he
    obtain ⟨rfl, hX⟩ := List.append_inj' he rfl
    obtain rfl := List.singleton_inj.1 hX
    have hal' : X'.alloc = true := by
      rcases hal with h | h
      · rw [h, hXa]
      · omega
    exact ⟨pre, X', rfl, ha ▸ hseg, hs.trans h0, hal', ha ▸ hbrk⟩
  · have hseg : ∀ Y : Blk, Y.addr = X.addr → Y.size = X.size →
        Seg X.addr [Y] (X.addr + X.size) := fun Y h1 h2 => by simp [h1, h2, h16, h16']
    have hbl' : H.blocks = pre ++ [X] ++ post := by simpa using hbl
    simpa using h.retile hbl' (hseg X rfl rfl) (by simp) (hseg X' ha hs)

end Layout

end SegAlloc.View
