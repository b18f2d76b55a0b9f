import SegAlloc.Trace.Walk
import SegAlloc.Refine.ListState

/-!
# The buckets

`insert_free` into a non-empty bucket does not write the new head's `prev` word, and
removing a head does not clear the `prev` word of the next node, which becomes the
head. So the head of a bucket may hold a stale `prev` address in a reachable state
(`bucket_head_prev_stale`). `remove_free` loads that word but its result does not depend
on it: it finds the head by comparing with `seg_list` (`is_head`), and deletes exactly
the node it is given (`Reach.bucket_links`).

On the list state alone, with no heap layout, `insert_free` pushes and `remove_free`
erases on the list the block's size selects, at every position of the block in a list of
every length (`insert_remove_free`); every reachable state holds such a list state
(`Reach.listState`).
-/

namespace SegAlloc.Trace

open SegAlloc.Machine SegAlloc.Model SegAlloc.View SegAlloc.Refine

/-- `malloc(2024)` on a state whose bucket 6 starts with the free block `4104` of 2032
bytes, followed by `6168`: the head is taken whole, and `6168` becomes the head with its
`prev` word as it was. -/
theorem malloc_takes_head {s : State} (hstart : s.heapStart ≠ 0)
    (hfit : Model.findFit s 2032 = some 4104) (hA : readWord s.mem 4104 = packAll 2032 false true false)
    (hB : readWord s.mem 6136 = packAll 32 true false false) (hseg : s.segList 6 = 4104)
    (hnext : readWord s.mem (nextField 4104) = 6168) :
    ∃ s', Model.malloc s 2024 = some (4112, s') ∧ s'.segList 6 = 6168 ∧
      readWord s'.mem (prevField 6168) = readWord s.mem (prevField 6168) := by
  have hA' : getSize s 4104 = 2032 := by rw [getSize, hA]; decide
  have hrm := removeFree_of_head (s := s) (b := 4104) (by rw [isMiniBlock, hA']; rfl)
    (by rw [hA']; exact hseg)
  rw [hA', hnext] at hrm
  set s₁ : State := { s with segList := Function.update s.segList (findClass 2032) 6168 } with hs₁
  set s₂ := s₁.setWord 4104 (packAll 2032 true true false) with hs₂
  set s₃ := s₂.setWord 6136 (readWord s₂.mem 6136 ||| prevAllocMask) with hs₃
  have h₂ : readWord s₂.mem 4104 = packAll 2032 true true false := readWord_writeWord_of_lt (by decide)
  have h₂' : readWord s₂.mem 6136 = packAll 32 true false false :=
    (readWord_writeWord_of_disjoint (by omega)).trans hB
  have h₃ : readWord s₃.mem 4104 = packAll 2032 true true false :=
    (readWord_writeWord_of_disjoint (by omega)).trans h₂
  have h₃' : readWord s₃.mem 6136 = packAll 32 true false false ||| prevAllocMask := by
    rw [State.setWord_mem, readWord_writeWord_of_lt (by rw [h₂']; decide), h₂']
  -- the steps of `place` on `4104`, each on a state that is a name
  have hwpk : writePack s₁ 4104 2032 true true false = s₂ := by
    simp only [writePack, Bool.not_true, Bool.false_and, Bool.false_eq_true, if_false]
  have hnx : findNext s₂ 4104 = 6136 := by
    rw [findNext, getSize, h₂, show extractSize (packAll 2032 true true false) = 2032 by decide]
  have hwp : writePrevAlloc s₂ 6136 true = s₃ := by
    simp only [writePrevAlloc, if_true, getAlloc, h₃',
      show extractAlloc (packAll 32 true false false ||| prevAllocMask) = true by decide,
      Bool.not_true, Bool.false_and, Bool.false_eq_true, if_false]
  have hsp : splitBlock s₃ 4104 2032 = (0, s₃) := by
    simp only [splitBlock, getSize, h₃, show extractSize (packAll 2032 true true false) = 2032 by decide,
      show ¬sub64 2032 2032 ≥ minBlockSize by decide, if_false]
  have g₁ : getSize s₁ 4104 = 2032 := hA'
  have g₂ : getPrevAlloc s₁ 4104 = true := by
    show extractPrevAlloc (readWord s.mem 4104) = true
    rw [hA]; decide
  have g₃ : getPrevMini s₁ 4104 = false := by
    show extractPrevMini (readWord s.mem 4104) = false
    rw [hA]; decide
  clear_value s₃ s₂ s₁
  refine ⟨s₃, ?_, ?_, ?_⟩
  · rw [Model.malloc, if_neg hstart, mallocInit_of_fit (by decide) (by decide) hfit (by decide),
      place_of_whole hrm (by rw [g₁, g₂, g₃, hwpk, hnx, hwp, hsp])]
    rfl
  · rw [hs₃, State.setWord_segList, hs₂, State.setWord_segList, hs₁,
      show findClass 2032 = 6 by decide]
    exact Function.update_same 6 6168 s.segList
  · rw [hs₃, State.setWord_mem, readWord_writeWord_of_disjoint (by simp only [prevField]; omega),
      hs₂, State.setWord_mem, readWord_writeWord_of_disjoint (by simp only [prevField]; omega), hs₁]

/-- A trace after which a bucket's head has a `prev` word that is not `NULL`: the blocks
`4104` and `6168` of 2032 bytes are freed into bucket 6, and `malloc(2024)` takes the
head, `4104`, leaving the next node `6168` with `prev = 4104`. -/
theorem bucket_head_prev_stale : ∃ s live, Reach s live ∧
    ∃ i < LENGTH, s.segList i ≠ 0 ∧ readWord s.mem (prevField (s.segList i)) ≠ 0 := by
  obtain ⟨hr, hR, hW, -, -⟩ := reach_replayed [.malloc 2024, .malloc 24, .free 4112] (by decide)
  set H := (viewed [.malloc 2024, .malloc 24, .free 4112]).1
  have hblk : H.blocks = [⟨4104, 2032, false, true, false⟩, ⟨6136, 32, true, false, false⟩,
      ⟨6168, 2032, false, true, false⟩, ⟨8200, 0, true, false, false⟩] := by decide
  have hseg : H.seg 6 = [4104, 6168] := by decide
  have hlinks := hR.segLinks 6 (by decide)
  rw [hseg] at hlinks
  obtain ⟨s', hrun, hhead, hprev⟩ := malloc_takes_head (s := (replayed [.malloc 2024, .malloc 24, .free 4112]).1)
    (by rw [hR.start]; decide) ((findFit_eq hR hW.lists 2032).trans (by decide))
    (hR.header_eq (X := ⟨4104, 2032, false, true, false⟩) (by rw [hblk]; simp))
    (hR.header_eq (X := ⟨6136, 32, true, false, false⟩) (by rw [hblk]; simp))
    ((hR.segHead 6 (by decide)).trans (by rw [hseg]; rfl)) hlinks.1
  refine ⟨s', _, hr.call (c := .malloc 2024) (by decide) hrun, 6, by decide, ?_⟩
  rw [hhead, hprev, hlinks.2.1 6168 rfl]
  decide

/-- The `prev` word of every node of a bucket but the head holds its predecessor. -/
theorem chain_prev_of_segLinks {m : Mem} :
    ∀ {l : List Nat}, SegLinks m l → l.Chain' fun x y => readWord m (prevField y) = x
  | [], _ => List.chain'_nil
  | _ :: _, ⟨_, hp, hl⟩ => List.chain'_cons'.2 ⟨hp, chain_prev_of_segLinks hl⟩

/-- Each bucket is a `NULL`-terminated list of distinct free blocks of its class, linked back
by `prev` but at the head, and `remove_free` deletes exactly the node it is given. -/
theorem Reach.bucket_links {s : State} {live : List Nat} (h : Reach s live) {i : Nat}
    (hi : i < LENGTH) : ∃ l, segWalk s i = some l ∧ l.Nodup ∧
      (∀ x ∈ l, getAlloc s x = false ∧ getSize s x ≠ minBlockSize ∧ findClass (getSize s x) = i) ∧
      (l.Chain' fun x y => readWord s.mem (prevField y) = x) ∧
      ∀ x ∈ l, ∃ s', removeFree s x = some s' ∧ segWalk s' i = some (l.erase x) ∧
        (∀ j < LENGTH, j ≠ i → segWalk s' j = segWalk s j) ∧ miniWalk s' = miniWalk s := by
  obtain ⟨H, hR, hW, -⟩ := h.inv
  have hL := hW.lists
  refine ⟨_, segWalk_eq hR hL hi, hL.segNodup i, fun x hx => ?_,
    chain_prev_of_segLinks (hR.segLinks i hi), fun x hx => ?_⟩ <;>
  obtain ⟨X, hX, rfl, hXf, hXm, hXc⟩ := hL.seg i x hx
  · rw [getAlloc_eq hR hX, getSize_eq hR hX]
    exact ⟨hXf, hXm, hXc⟩
  · have hin : X.addr ∈ H.listFor X.size := by rw [Heap.listFor, if_neg hXm, hXc]; exact hx
    obtain ⟨s', hrm, hR', -⟩ := removeFree_rep hR hL hX hin
    have hL' := hL.erase X.addr X.size
    refine ⟨s', hrm, ?_, fun j hj hji => ?_, ?_⟩
    · rw [segWalk_eq hR' hL' hi, Heap.erase_seg, if_pos ⟨hXm, hXc.symm⟩]
    · rw [segWalk_eq hR' hL' hj, segWalk_eq hR hL hj, Heap.erase_seg, if_neg fun h => hji (h.2.trans hXc)]
    · rw [miniWalk_eq hR' hL', miniWalk_eq hR hL, Heap.erase_mini, if_neg hXm]

/-- The bucket with the stale head `prev` word still unlinks exactly. -/
theorem bucket_links_replayed :
    let s := (replayed [.malloc 24, .malloc 24, .malloc 24, .malloc 24, .free 4112, .free 4176,
      .malloc 24]).1
    ∃ l, segWalk s 1 = some l ∧ l.Nodup ∧
      (∀ x ∈ l, getAlloc s x = false ∧ getSize s x ≠ minBlockSize ∧ findClass (getSize s x) = 1) ∧
      (l.Chain' fun x y => readWord s.mem (prevField y) = x) ∧
      ∀ x ∈ l, ∃ s', removeFree s x = some s' ∧ segWalk s' 1 = some (l.erase x) ∧
        (∀ j < LENGTH, j ≠ 1 → segWalk s' j = segWalk s j) ∧ miniWalk s' = miniWalk s :=
  Reach.bucket_links (reach_replayed [.malloc 24, .malloc 24, .malloc 24, .malloc 24, .free 4112,
    .free 4176, .malloc 24] (by decide)).1 (by decide)

/-- Every reachable state holds the lists of its heap as a list state. -/
theorem Reach.listState {s : State} {live : List Nat} (h : Reach s live) : ∃ H, ListState s H :=
  let ⟨H, hR, hW, _⟩ := h.inv
  ⟨H, hR.listState hW.lists⟩

/-- On every list state, `insert_free` pushes on and `remove_free` erases from the list the
block's size selects, keeping the other lists and the list state. -/
theorem insert_remove_free {s : State} {H : Heap} (hS : ListState s H) :
    (∀ b, ¬Listed H b → 0 < b → b < s.lib.brk →
      (∀ y, Listed H y → LinksApart (isMiniBlock s b) b (decide (y ∈ H.mini)) y) →
      (H.push b (getSize s b)).listFor (getSize s b) = b :: H.listFor (getSize s b) ∧
        ListState (insertFree s b) (H.push b (getSize s b))) ∧
    (∀ b, b ∈ H.listFor (getSize s b) →
      (H.erase b (getSize s b)).listFor (getSize s b) = (H.listFor (getSize s b)).erase b ∧
        ∃ s', removeFree s b = some s' ∧ ListState s' (H.erase b (getSize s b))) :=
  ⟨fun _ hu h0 hb hap => ⟨listFor_push_self, (hS.insertFree hu h0 hb hap).1⟩,
    fun _ hin => ⟨listFor_erase_self, (hS.removeFree hin).imp fun _ h => ⟨h.1, h.2.1⟩⟩⟩

/-- The list state after two allocations of 32 bytes and the free of the first, read from
the bytes. -/
theorem insert_remove_free_replayed :
    let s := (replayed [.malloc 24, .malloc 24, .free 4112]).1
    let H := (viewed [.malloc 24, .malloc 24, .free 4112]).1
    ListState s H ∧
    (∀ b, ¬Listed H b → 0 < b → b < s.lib.brk →
      (∀ y, Listed H y → LinksApart (isMiniBlock s b) b (decide (y ∈ H.mini)) y) →
      (H.push b (getSize s b)).listFor (getSize s b) = b :: H.listFor (getSize s b) ∧
        ListState (insertFree s b) (H.push b (getSize s b))) ∧
    (∀ b, b ∈ H.listFor (getSize s b) →
      (H.erase b (getSize s b)).listFor (getSize s b) = (H.listFor (getSize s b)).erase b ∧
        ∃ s', removeFree s b = some s' ∧ ListState s' (H.erase b (getSize s b))) :=
  have h := reach_replayed [.malloc 24, .malloc 24, .free 4112] (by decide)
  ⟨h.2.1.listState h.2.2.1.lists, insert_remove_free (h.2.1.listState h.2.2.1.lists)⟩

/-- `seg_list[0]` is `NULL` in every reachable state: a free block of class 0 is a mini block. -/
theorem Reach.bucket_zero_empty {s : State} {live : List Nat} (h : Reach s live) :
    s.segList 0 = 0 := by
  obtain ⟨H, hR, hW, -⟩ := h.inv
  have hnil : H.seg 0 = [] := List.eq_nil_iff_forall_not_mem.2 fun x hx => by
    obtain ⟨X, hX, -, hXf, hXm, hXc⟩ := hW.lists.seg 0 x hx
    have := hW.layout.free_size hX hXf
    have := lt_of_findClass_eq_zero hXc
    exact hXm (by simp only [minBlockSize, dsize, wsize]; omega)
  rw [hR.segHead 0 (by decide), hnil]
  rfl

/-- Bucket 0 after a mini block and a 32-byte block were freed apart. -/
theorem bucket_zero_empty_replayed :
    (replayed [.malloc 8, .malloc 8, .malloc 24, .malloc 8, .free 4112, .free 4144]).1.segList 0 = 0 :=
  Reach.bucket_zero_empty
    (reach_replayed [.malloc 8, .malloc 8, .malloc 24, .malloc 8, .free 4112, .free 4144]
      (by decide)).1

end SegAlloc.Trace
