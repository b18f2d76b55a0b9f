import SegAlloc.Trace.Reach

/-!
# Walking the heap and the lists

`mm_checkheap` walks the heap from `heap_start` by `find_next` to the epilogue, and
each free list from its head by its `next` words to `NULL`. `heapWalk` and
`listWalk` are these walks, with fuel. On a represented heap they return the block
addresses and the list contents of the decoded heap (`heapWalk_eq`,
`miniWalk_eq`, `segWalk_eq`), so the results below can be stated over the bytes.
-/

namespace SegAlloc.Trace

open SegAlloc.Machine SegAlloc.Model SegAlloc.View SegAlloc.Refine

/-- The headers met walking by `find_next` from `block` to the first header of size 0, the
epilogue, which is included. -/
def heapWalk (s : State) : Nat → Nat → Option (List Nat)
  | 0, _ => none
  | fuel + 1, block =>
    if getSize s block = 0 then some [block]
    else (heapWalk s fuel (findNext s block)).map (block :: ·)

/-- The nodes of a list linked through the word at `next node`, from `node` to `NULL`. -/
def listWalk (m : Mem) (next : Nat → Nat) : Nat → Nat → Option (List Nat)
  | 0, _ => none
  | fuel + 1, node =>
    if node = 0 then some []
    else (listWalk m next fuel (readWord m (next node))).map (node :: ·)

/-- The mini list, from `mini_list`. -/
def miniWalk (s : State) : Option (List Nat) := listWalk s.mem miniNextField (loopFuel s) s.miniList

/-- The bucket `seg_list[i]`. -/
def segWalk (s : State) (i : Nat) : Option (List Nat) :=
  listWalk s.mem nextField (loopFuel s) (s.segList i)

/-- `b` is on the list that `insert_free` puts a block of its size on. -/
def OnItsList (s : State) (b : Nat) : Prop :=
  ∃ l ∈ (if getSize s b = minBlockSize then miniWalk s else segWalk s (findClass (getSize s b))),
    b ∈ l

/-- `b` is on no free list. -/
def OnNoList (s : State) (b : Nat) : Prop :=
  (∀ l ∈ miniWalk s, b ∉ l) ∧ ∀ i < LENGTH, ∀ l ∈ segWalk s i, b ∉ l

/-- A list whose every node links to the next one, and the last to `NULL`. -/
theorem listWalk_of_chain {m : Mem} {next : Nat → Nat} :
    ∀ {l : List Nat} {fuel : Nat}, (l ++ [0]).Chain' (fun x y => readWord m (next x) = y) →
      (∀ x ∈ l, x ≠ 0) → l.length < fuel → listWalk m next fuel (l.headD 0) = some l
  | _, 0, _, _, hlen => absurd hlen (Nat.not_lt_zero _)
  | [], fuel + 1, _, _, _ => by simp [listWalk]
  | x :: l, fuel + 1, hc, h0, hlen => by
    rw [List.cons_append, List.chain'_cons'] at hc
    have hx : readWord m (next x) = l.headD 0 := hc.1 _ (by cases l <;> rfl)
    rw [List.headD_cons, listWalk, if_neg (h0 x (List.mem_cons_self _ _)), hx,
      listWalk_of_chain hc.2 (fun y hy => h0 y (List.mem_cons_of_mem _ hy))
        (by rw [List.length_cons] at hlen; omega)]
    rfl

theorem chain_of_miniLinks {m : Mem} :
    ∀ {l : List Nat}, MiniLinks m l → (l ++ [0]).Chain' fun x y => readWord m (miniNextField x) = y
  | [], _ => List.chain'_singleton _
  | x :: l, ⟨hx, hl⟩ => List.chain'_cons'.2 ⟨fun y hy => by cases l <;> simp_all, chain_of_miniLinks hl⟩

theorem chain_of_segLinks {m : Mem} :
    ∀ {l : List Nat}, SegLinks m l → (l ++ [0]).Chain' fun x y => readWord m (nextField x) = y
  | [], _ => List.chain'_singleton _
  | x :: l, ⟨hx, _, hl⟩ => List.chain'_cons'.2 ⟨fun y hy => by cases l <;> simp_all, chain_of_segLinks hl⟩

section Walks

variable {s : State} {H : Heap} (hR : Rep s H)
include hR

/-- The walk over a tiled stretch ending at the epilogue; each block is at least 16 bytes,
so the fuel needed is bounded by the stretch's length over 16. -/
theorem heapWalk_seg {epi : Blk} (hepi : epi ∈ H.blocks) (h0 : epi.size = 0) :
    ∀ {real : List Blk} {a fuel : Nat}, Seg a real epi.addr → (∀ b ∈ real, b ∈ H.blocks) →
      epi.addr < a + 16 * fuel → heapWalk s fuel a = some ((real ++ [epi]).map (·.addr))
  | _, _, 0, hs, _, hlen => absurd hlen (by have := (Seg.bounds hs).1; omega)
  | [], a, fuel + 1, hs, _, _ => by
    rw [seg_nil] at hs
    subst hs
    simp [heapWalk, getSize_eq hR hepi, h0]
  | b :: real, a, fuel + 1, hs, hb, hlen => by
    obtain ⟨rfl, h16, -, hs⟩ := hs
    have hbH := hb b (List.mem_cons_self _ _)
    rw [heapWalk, getSize_eq hR hbH, if_neg (by omega), findNext_eq hR hbH, Blk.next,
      heapWalk_seg hepi h0 hs (fun c hc => hb c (List.mem_cons_of_mem _ hc)) (by omega)]
    rfl

/-- The heap walk from `heap_start` meets exactly the blocks of the decoded heap. -/
theorem heapWalk_eq : heapWalk s (loopFuel s) s.heapStart = some (H.blocks.map (·.addr)) := by
  obtain ⟨real, epi, hbl, hs, h0, -, hbrk⟩ := hR.layout.blocks_eq
  rw [hR.start, hbl]
  exact heapWalk_seg hR (by simp [hbl]) h0 hs (fun b hb => by simp [hbl, hb])
    (by rw [loopFuel, hR.lib]; omega)

variable (hL : Lists H)
include hL

theorem mini_length_lt : H.mini.length < loopFuel s := by
  have hbrk : 0 < H.lib.brk := by
    obtain ⟨real, epi, -, -, -, -, h⟩ := hR.layout
    omega
  have := length_le_of_nodup (n := H.lib.brk - 15) hL.miniNodup fun x hx => by
    have := (hR.listed_bounds hL (.inl hx)).2; omega
  rw [loopFuel, hR.lib]
  omega

/-- The mini-list walk meets exactly the decoded mini list. -/
theorem miniWalk_eq : miniWalk s = some H.mini := by
  rw [SegAlloc.Trace.miniWalk, hR.miniHead]
  exact listWalk_of_chain (chain_of_miniLinks hR.miniLinks)
    (fun x hx => (hR.listed_bounds hL (.inl hx)).1.ne') (mini_length_lt hR hL)

/-- The bucket walk meets exactly the decoded bucket. -/
theorem segWalk_eq {i : Nat} (hi : i < LENGTH) : segWalk s i = some (H.seg i) := by
  rw [SegAlloc.Trace.segWalk, hR.segHead i hi]
  exact listWalk_of_chain (chain_of_segLinks (hR.segLinks i hi))
    (fun x hx => (hR.listed_bounds hL (.inr ⟨i, hx⟩)).1.ne') (hR.seg_length_lt hL i)

/-- A listed block of the heap is on its list. -/
theorem onItsList_of_rep {X : Blk} (hX : X ∈ H.blocks) (hin : X.addr ∈ H.listFor X.size) :
    OnItsList s X.addr := by
  refine ⟨H.listFor X.size, ?_, hin⟩
  rw [getSize_eq hR hX, Heap.listFor]
  split_ifs
  · exact miniWalk_eq hR hL
  · exact segWalk_eq hR hL (findClass_lt _)

/-- An unlisted address is on no list. -/
theorem onNoList_of_rep {x : Nat} (hu : Unlisted H x) : OnNoList s x :=
  ⟨fun l hl => by
    rw [miniWalk_eq hR hL, Option.mem_some_iff] at hl
    exact hl ▸ hu.1,
   fun i hi l hl => by
    rw [segWalk_eq hR hL hi, Option.mem_some_iff] at hl
    exact hl ▸ hu.2 i⟩

end Walks

end SegAlloc.Trace
