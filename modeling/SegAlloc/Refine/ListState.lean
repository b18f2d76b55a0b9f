import SegAlloc.Refine.Rep

/-!
# The free lists on their own

`insert_free` and `remove_free` read and write only the list heads, the sizes of the
blocks they are given, and the link words of the listed nodes. `ListState s H` says that
`s` holds the mini list `H.mini` and the buckets `H.seg i`, `i < LENGTH`, as lists that are
finite, `NULL`-terminated, acyclic and pairwise disjoint, with `X.next.prev = X` inside
buckets; the nodes are not `NULL`, lie below the break, and the link words of distinct
nodes do not overlap. No heap layout is assumed.

`insert_free` pushes a block that is on no list onto the list its size selects, and
`remove_free` deletes a block from the list its size selects; every other list is kept,
and so is the list state (`ListState.insertFree`, `ListState.removeFree`). Both write
only inside the link words of the block and of the nodes (`InLinks`).
-/

namespace SegAlloc.Refine

open SegAlloc.Machine SegAlloc.Model SegAlloc.View

/-- `x` is a node of the mini list or of a bucket below `LENGTH`. -/
def Listed (H : Heap) (x : Nat) : Prop := x ∈ H.mini ∨ ∃ i < LENGTH, x ∈ H.seg i

/-- The link words of a node at `x` lie in `[x + 8, linkEnd mini x)`: the `next` word of a
mini node; the `prev` and `next` words of a bucket node. -/
def linkEnd (mini : Bool) (x : Nat) : Nat := x + if mini then 16 else 24

/-- The link words of `x` and of `y` do not overlap. -/
def LinksApart (mx : Bool) (x : Nat) (my : Bool) (y : Nat) : Prop :=
  linkEnd mx x ≤ y + 8 ∨ linkEnd my y ≤ x + 8

/-- The link words of distinct nodes of `H`, each of the kind of its list, do not overlap. -/
def NodesApart (H : Heap) : Prop :=
  ∀ x y, Listed H x → Listed H y → x ≠ y →
    LinksApart (decide (x ∈ H.mini)) x (decide (y ∈ H.mini)) y

/-- `a` is a byte of the link words of a node of `H`. -/
def InLinks (H : Heap) (a : Nat) : Prop :=
  ∃ x, Listed H x ∧ x + 8 ≤ a ∧ a < linkEnd (decide (x ∈ H.mini)) x

/-- The list state of `s`: the heads and the links of the lists of `H`, which are
acyclic and pairwise disjoint, with nodes that are not `NULL`, lie below the break of a
64-bit heap, and have link words apart. -/
structure ListState (s : State) (H : Heap) : Prop where
  miniHead : s.miniList = H.mini.headD 0
  miniLinks : MiniLinks s.mem H.mini
  segHead : ∀ i < LENGTH, s.segList i = (H.seg i).headD 0
  segLinks : ∀ i < LENGTH, SegLinks s.mem (H.seg i)
  miniNodup : H.mini.Nodup
  segNodup : ∀ i < LENGTH, (H.seg i).Nodup
  miniSeg : ∀ x ∈ H.mini, ∀ i < LENGTH, x ∉ H.seg i
  segSeg : ∀ i < LENGTH, ∀ j < LENGTH, ∀ x ∈ H.seg i, x ∈ H.seg j → i = j
  pos : ∀ x, Listed H x → 0 < x
  lt_brk : ∀ x, Listed H x → x < s.lib.brk
  brk : s.lib.brk ≤ 2 ^ 64
  apart : NodesApart H

/-- Two words inside the link words of two nodes apart do not overlap. -/
theorem disj_of_apart {mz mx : Bool} {z x w a : Nat} (h : LinksApart mz z mx x)
    (hw : z + 8 ≤ w ∧ w + 8 ≤ linkEnd mz z) (ha : x + 8 ≤ a ∧ a + 8 ≤ linkEnd mx x) :
    Disj w a := by
  unfold Disj
  unfold LinksApart at h
  omega

theorem miniNext_word {H : Heap} {x : Nat} (hx : x ∈ H.mini) :
    x + 8 ≤ miniNextField x ∧ miniNextField x + 8 ≤ linkEnd (decide (x ∈ H.mini)) x := by
  simp [miniNextField, linkEnd, hx]

/-- The head of a list is `NULL` only for the empty list. -/
theorem headD_lt {l : List Nat} {n : Nat} (hn : n ≤ 2 ^ 64) (h : ∀ x ∈ l, x < n) :
    l.headD 0 < 2 ^ 64 := by
  cases l with
  | nil => exact Nat.two_pow_pos 64
  | cons x l => have := h x (List.mem_cons_self _ _); simp only [List.headD_cons]; omega

/-- A word written inside the link words of a node changes link bytes only. -/
theorem frame_inLinks {H : Heap} {x w : Nat} (hx : Listed H x)
    (hw : x + 8 ≤ w ∧ w + 8 ≤ linkEnd (decide (x ∈ H.mini)) x) (m : Mem) (v : Nat) :
    Frame m (writeWord m w v) (InLinks H) :=
  (frame_writeWord m w v).mono fun _ ha => ⟨x, hx, by omega, by omega⟩

/-- A word written inside the link words of `b` changes the bytes of `b`'s link words
only. -/
theorem frame_own {H : Heap} {mb : Bool} {b w : Nat} (hw : b + 8 ≤ w ∧ w + 8 ≤ linkEnd mb b)
    (m : Mem) (v : Nat) :
    Frame m (writeWord m w v) fun a => (b + 8 ≤ a ∧ a < linkEnd mb b) ∨ InLinks H a :=
  (frame_writeWord m w v).mono fun _ ha => .inl ⟨by omega, by omega⟩

section Basic

variable {s : State} {H : Heap} (hS : ListState s H)
include hS

theorem ListState.seg_kind {i x : Nat} (hi : i < LENGTH) (hx : x ∈ H.seg i) :
    decide (x ∈ H.mini) = false :=
  decide_eq_false fun h => hS.miniSeg x h i hi hx

theorem ListState.prev_word {i x : Nat} (hi : i < LENGTH) (hx : x ∈ H.seg i) :
    x + 8 ≤ prevField x ∧ prevField x + 8 ≤ linkEnd (decide (x ∈ H.mini)) x := by
  rw [hS.seg_kind hi hx]
  simp [prevField, linkEnd]

theorem ListState.next_word {i x : Nat} (hi : i < LENGTH) (hx : x ∈ H.seg i) :
    x + 8 ≤ nextField x ∧ nextField x + 8 ≤ linkEnd (decide (x ∈ H.mini)) x := by
  rw [hS.seg_kind hi hx]
  simp [nextField, linkEnd]

/-- Listed addresses fit a word. -/
theorem ListState.lt_word {x : Nat} (hx : Listed H x) : x < 2 ^ 64 :=
  (hS.lt_brk x hx).trans_le hS.brk

/-- Words inside the link words of distinct nodes do not overlap. -/
theorem ListState.disj {z w x a : Nat} (hz : Listed H z) (hx : Listed H x) (hne : z ≠ x)
    (hw : z + 8 ≤ w ∧ w + 8 ≤ linkEnd (decide (z ∈ H.mini)) z)
    (ha : x + 8 ≤ a ∧ a + 8 ≤ linkEnd (decide (x ∈ H.mini)) x) : Disj w a :=
  disj_of_apart (hS.apart z x hz hx hne) hw ha

/-- A word written inside the link words of the node `z` keeps every link word of every
other node. -/
theorem ListState.read_other {z w x a : Nat} (hz : Listed H z) (hx : Listed H x) (hne : x ≠ z)
    (hw : z + 8 ≤ w ∧ w + 8 ≤ linkEnd (decide (z ∈ H.mini)) z)
    (ha : x + 8 ≤ a ∧ a + 8 ≤ linkEnd (decide (x ∈ H.mini)) x) (m : Mem) (v : Nat) :
    readWord (writeWord m w v) a = readWord m a :=
  readWord_write_disj (hS.disj hz hx (Ne.symm hne) hw ha)

/-- The list state reads the bytes only at the link words: the `next` word of every node,
and the `prev` word of every bucket node but the head. -/
theorem ListState.transport {m : Mem}
    (hmini : ∀ x ∈ H.mini, readWord m (miniNextField x) = readWord s.mem (miniNextField x))
    (hnext : ∀ i < LENGTH, ∀ x ∈ H.seg i, readWord m (nextField x) = readWord s.mem (nextField x))
    (hprev : ∀ i < LENGTH, ∀ x ∈ (H.seg i).tail,
      readWord m (prevField x) = readWord s.mem (prevField x)) :
    ListState { s with mem := m } H :=
  { hS with
    miniLinks := hS.miniLinks.transport hmini
    segLinks := fun i hi => (hS.segLinks i hi).transport (hnext i hi) (hprev i hi) }

/-- A write inside the link words of a block `z` apart from every node keeps the list
state. -/
theorem ListState.setWord_apart {mz : Bool} {z w : Nat}
    (hz : ∀ y, Listed H y → LinksApart mz z (decide (y ∈ H.mini)) y)
    (hw : z + 8 ≤ w ∧ w + 8 ≤ linkEnd mz z) (v : Nat) : ListState (s.setWord w v) H :=
  hS.transport
    (fun x hx => readWord_write_disj (disj_of_apart (hz x (.inl hx)) hw (miniNext_word hx)))
    (fun i hi x hx => readWord_write_disj
      (disj_of_apart (hz x (.inr ⟨i, hi, hx⟩)) hw (hS.next_word hi hx)))
    fun i hi x hx => readWord_write_disj
      (disj_of_apart (hz x (.inr ⟨i, hi, List.mem_of_mem_tail hx⟩)) hw
        (hS.prev_word hi (List.mem_of_mem_tail hx)))

/-- The `prev` word of a bucket's head is not part of the list state. -/
theorem ListState.setWord_headPrev {c y : Nat} {l : List Nat} (hc : c < LENGTH)
    (hs : H.seg c = y :: l) (v : Nat) : ListState (s.setWord (prevField y) v) H := by
  have hyc : y ∈ H.seg c := by simp [hs]
  have hy : Listed H y := .inr ⟨c, hc, hyc⟩
  have hw := hS.prev_word hc hyc
  refine hS.transport (fun x hx => ?_) (fun i hi x hx => ?_) fun i hi x hx => ?_
  · exact hS.read_other hy (.inl hx) (fun h => hS.miniSeg x hx c hc (h ▸ hyc)) hw
      (miniNext_word hx) _ _
  · by_cases hxy : x = y
    · subst hxy
      exact readWord_write_disj (by unfold Disj prevField nextField; omega)
    · exact hS.read_other hy (.inr ⟨i, hi, hx⟩) hxy hw (hS.next_word hi hx) _ _
  · have hx' := List.mem_of_mem_tail hx
    refine hS.read_other hy (.inr ⟨i, hi, hx'⟩) (fun hxy => ?_) hw (hS.prev_word hi hx') _ _
    subst hxy
    obtain rfl := hS.segSeg i hi c hc _ hx' hyc
    rw [hs] at hx
    exact (List.nodup_cons.1 (hs ▸ hS.segNodup _ hc)).1 hx

end Basic

section Lists

variable {H : Heap} {b size y : Nat}

theorem mem_push_mini : y ∈ (H.push b size).mini ↔ (y = b ∧ size = minBlockSize) ∨ y ∈ H.mini := by
  rw [Heap.push_mini]
  split_ifs with h <;> simp [h]

theorem mem_push_seg {i : Nat} : y ∈ (H.push b size).seg i ↔
    (y = b ∧ size ≠ minBlockSize ∧ i = findClass size) ∨ y ∈ H.seg i := by
  rw [Heap.push_seg]
  split_ifs with h <;> simp_all

theorem mem_erase_mini (hne : y ≠ b) : y ∈ (H.erase b size).mini ↔ y ∈ H.mini := by
  rw [Heap.erase_mini]
  split_ifs <;> simp [List.mem_erase_of_ne hne]

theorem mem_erase_seg {i : Nat} (hne : y ≠ b) : y ∈ (H.erase b size).seg i ↔ y ∈ H.seg i := by
  rw [Heap.erase_seg]
  split_ifs <;> simp [List.mem_erase_of_ne hne]

/-- The list selected by `size` gets `b` in front. -/
theorem listFor_push_self : (H.push b size).listFor size = b :: H.listFor size := by
  unfold Heap.push Heap.listFor
  split_ifs <;> simp

/-- The list selected by `size` loses `b`. -/
theorem listFor_erase_self : (H.erase b size).listFor size = (H.listFor size).erase b := by
  unfold Heap.erase Heap.listFor
  split_ifs <;> simp

theorem listed_push : Listed (H.push b size) y ↔ y = b ∨ Listed H y := by
  have hc := findClass_lt size
  simp only [Listed, mem_push_mini, mem_push_seg]
  by_cases hm : size = minBlockSize
  · simp only [hm, and_true, ne_eq, not_true_eq_false, false_and, and_false, false_or]
    tauto
  · simp only [hm, and_false, false_or, ne_eq, not_false_eq_true, true_and]
    constructor
    · rintro (h | ⟨i, hi, ⟨rfl, -⟩ | h⟩)
      · exact .inr (.inl h)
      · exact .inl rfl
      · exact .inr (.inr ⟨i, hi, h⟩)
    · rintro (rfl | h | ⟨i, hi, h⟩)
      · exact .inr ⟨_, hc, .inl ⟨rfl, rfl⟩⟩
      · exact .inl h
      · exact .inr ⟨i, hi, .inr h⟩

theorem listed_of_erase (h : Listed (H.erase b size) y) : Listed H y := by
  unfold Listed at h ⊢
  rw [Heap.erase_mini] at h
  simp only [Heap.erase_seg] at h
  rcases h with h | ⟨i, hi, h⟩
  · split_ifs at h
    · exact .inl (List.mem_of_mem_erase h)
    · exact .inl h
  · split_ifs at h
    · exact .inr ⟨i, hi, List.mem_of_mem_erase h⟩
    · exact .inr ⟨i, hi, h⟩

end Lists

section Bookkeeping

variable {s s' : State} {H : Heap} (hS : ListState s H) {b size : Nat}
include hS

/-- Pushing a node. A state whose heads and links are those of the lists of `H` with
`b` pushed on the list `size` selects holds them, when `b` is on no list, not `NULL`, below
the break, and has link words apart from every node's. -/
theorem ListState.of_push (hu : ¬Listed H b) (h0 : 0 < b) (hb : b < s.lib.brk)
    (hap : ∀ y, Listed H y → LinksApart (size == minBlockSize) b (decide (y ∈ H.mini)) y)
    (hmh : s'.miniList = (H.push b size).mini.headD 0) (hml : MiniLinks s'.mem (H.push b size).mini)
    (hsh : ∀ i < LENGTH, s'.segList i = ((H.push b size).seg i).headD 0)
    (hsl : ∀ i < LENGTH, SegLinks s'.mem ((H.push b size).seg i)) (hbrk : s'.lib.brk = s.lib.brk) :
    ListState s' (H.push b size) := by
  have hbm : b ∉ H.mini := fun h => hu (.inl h)
  have hbs : ∀ i < LENGTH, b ∉ H.seg i := fun i hi h => hu (.inr ⟨i, hi, h⟩)
  -- the kinds: `b` by its size, every other node as before
  have hk : ∀ y, y ≠ b → decide (y ∈ (H.push b size).mini) = decide (y ∈ H.mini) :=
    fun y hne => by simp [mem_push_mini, hne]
  have hkb : decide (b ∈ (H.push b size).mini) = (size == minBlockSize) := by
    by_cases h : size = minBlockSize <;> simp [mem_push_mini, hbm, h]
  refine
    { miniHead := hmh
      miniLinks := hml
      segHead := hsh
      segLinks := hsl
      miniNodup := ?_
      segNodup := fun i hi => ?_
      miniSeg := fun x hx i hi hxi => ?_
      segSeg := fun i hi j hj x hxi hxj => ?_
      pos := fun x hx => (listed_push.1 hx).elim (fun e => e ▸ h0) (hS.pos x)
      lt_brk := fun x hx => hbrk ▸ (listed_push.1 hx).elim (fun e => e ▸ hb) (hS.lt_brk x)
      brk := hbrk ▸ hS.brk
      apart := fun x y hx hy hne => ?_ }
  · rw [Heap.push_mini]
    split_ifs
    · exact List.nodup_cons.2 ⟨hbm, hS.miniNodup⟩
    · exact hS.miniNodup
  · rw [Heap.push_seg]
    split_ifs
    · exact List.nodup_cons.2 ⟨hbs i hi, hS.segNodup i hi⟩
    · exact hS.segNodup i hi
  · rw [mem_push_mini] at hx
    rw [mem_push_seg] at hxi
    rcases hx with ⟨rfl, hm⟩ | hx
    · rcases hxi with ⟨-, hm', -⟩ | hxi
      · exact hm' hm
      · exact hbs i hi hxi
    · rcases hxi with ⟨rfl, -⟩ | hxi
      · exact hbm hx
      · exact hS.miniSeg x hx i hi hxi
  · rw [mem_push_seg] at hxi hxj
    rcases hxi with ⟨rfl, -, rfl⟩ | hxi <;> rcases hxj with ⟨hxb, -, rfl⟩ | hxj
    · rfl
    · exact absurd hxj (hbs j hj)
    · exact absurd (hxb ▸ hxi) (hbs i hi)
    · exact hS.segSeg i hi j hj x hxi hxj
  · rcases listed_push.1 hx with rfl | hx' <;> rcases listed_push.1 hy with rfl | hy'
    · exact absurd rfl hne
    · rw [hkb, hk y (Ne.symm hne)]
      exact hap y hy'
    · rw [hkb, hk x hne]
      exact (hap x hx').symm
    · have hxb : x ≠ b := fun e => hu (e ▸ hx')
      have hyb : y ≠ b := fun e => hu (e ▸ hy')
      rw [hk x hxb, hk y hyb]
      exact hS.apart x y hx' hy' hne

/-- Pushing on a bucket. When writes keep the lists of `H` (`ht`) and give `b` the
old head as `next` and the old head `b` as `prev`, moving `seg_list[c]` to `b` pushes `b`
on bucket `c`. -/
theorem ListState.of_push_seg {s₁ : State} (hu : ¬Listed H b) (h0 : 0 < b) (hb : b < s.lib.brk)
    (hap : ∀ y, Listed H y → LinksApart (size == minBlockSize) b (decide (y ∈ H.mini)) y)
    (hm : size ≠ minBlockSize) (ht : ListState s₁ H)
    (hn : readWord s₁.mem (nextField b) = (H.seg (findClass size)).headD 0)
    (hp : ∀ y ∈ (H.seg (findClass size)).head?, readWord s₁.mem (prevField y) = b)
    (hbrk : s₁.lib.brk = s.lib.brk) :
    ListState { s₁ with segList := Function.update s₁.segList (findClass size) b }
      (H.push b size) := by
  refine hS.of_push hu h0 hb hap ?_ ?_ (fun i hi => ?_) (fun i hi => ?_) hbrk <;>
    rw [Heap.push, if_neg hm]
  · exact ht.miniHead
  · exact ht.miniLinks
  · simp only [Function.update_apply]
    split_ifs with h
    · rfl
    · exact ht.segHead i hi
  · simp only [Function.update_apply]
    split_ifs with h
    · subst h
      exact ⟨hn, hp, ht.segLinks _ (findClass_lt size)⟩
    · exact ht.segLinks i hi

/-- A node left after deleting `b` from the list `size` selects is not `b`. -/
theorem ListState.ne_of_erase (hin : b ∈ H.listFor size) {y : Nat}
    (hy : Listed (H.erase b size) y) : y ≠ b := by
  rintro rfl
  unfold Heap.listFor at hin
  unfold Listed at hy
  rw [Heap.erase_mini] at hy
  simp only [Heap.erase_seg] at hy
  have hc := findClass_lt size
  split_ifs at hin hy with hm
  · rcases hy with hy | ⟨i, hi, hy⟩
    · exact (hS.miniNodup.not_mem_erase) hy
    · rw [if_neg (fun h => h.1 hm)] at hy
      exact hS.miniSeg y hin i hi hy
  · rcases hy with hy | ⟨i, hi, hy⟩
    · exact hS.miniSeg y hy _ hc hin
    · split_ifs at hy with hi'
      · exact (hS.segNodup _ hi).not_mem_erase hy
      · exact hi' ⟨hm, hS.segSeg i hi _ hc y hy hin⟩

/-- Deleting a node. A state whose heads and links are those of the lists of `H` with
`b` deleted from the list `size` selects holds them. -/
theorem ListState.of_erase (hin : b ∈ H.listFor size)
    (hmh : s'.miniList = (H.erase b size).mini.headD 0) (hml : MiniLinks s'.mem (H.erase b size).mini)
    (hsh : ∀ i < LENGTH, s'.segList i = ((H.erase b size).seg i).headD 0)
    (hsl : ∀ i < LENGTH, SegLinks s'.mem ((H.erase b size).seg i)) (hbrk : s'.lib.brk = s.lib.brk) :
    ListState s' (H.erase b size) := by
  have hsub : ∀ y, y ∈ (H.erase b size).mini → y ∈ H.mini := fun y hy => by
    rw [Heap.erase_mini] at hy
    split_ifs at hy
    · exact List.mem_of_mem_erase hy
    · exact hy
  have hsubs : ∀ i y, y ∈ (H.erase b size).seg i → y ∈ H.seg i := fun i y hy => by
    rw [Heap.erase_seg] at hy
    split_ifs at hy
    · exact List.mem_of_mem_erase hy
    · exact hy
  refine
    { miniHead := hmh
      miniLinks := hml
      segHead := hsh
      segLinks := hsl
      miniNodup := ?_
      segNodup := fun i hi => ?_
      miniSeg := fun x hx i hi hxi => hS.miniSeg x (hsub x hx) i hi (hsubs i x hxi)
      segSeg := fun i hi j hj x hxi hxj => hS.segSeg i hi j hj x (hsubs i x hxi) (hsubs j x hxj)
      pos := fun x hx => hS.pos x (listed_of_erase hx)
      lt_brk := fun x hx => hbrk ▸ hS.lt_brk x (listed_of_erase hx)
      brk := hbrk ▸ hS.brk
      apart := fun x y hx hy hne => ?_ }
  · rw [Heap.erase_mini]
    split_ifs
    · exact hS.miniNodup.erase b
    · exact hS.miniNodup
  · rw [Heap.erase_seg]
    split_ifs
    · exact (hS.segNodup i hi).erase b
    · exact hS.segNodup i hi
  · have hxb := hS.ne_of_erase hin hx
    have hyb := hS.ne_of_erase hin hy
    have e : ∀ z, z ≠ b → decide (z ∈ (H.erase b size).mini) = decide (z ∈ H.mini) :=
      fun z hz => decide_eq_decide.2 (mem_erase_mini hz)
    rw [e x hxb, e y hyb]
    exact hS.apart x y (listed_of_erase hx) (listed_of_erase hy) hne

end Bookkeeping

theorem insertFree_of_mini {s : State} {b : Nat} (h : isMiniBlock s b = true) :
    insertFree s b = { s.setWord (miniNextField b) s.miniList with miniList := b } := by
  unfold insertFree
  rw [if_pos h]
  split_ifs with h0
  · rfl
  · rw [not_not] at h0; rw [h0]; rfl


/-- `insert_free` pushes. For a block `b` on no list, not `NULL`, below the break, and
with link words apart from every node's, `insert_free(b)` makes the list that `b`'s size
selects `b` followed by its old contents, and keeps every other list and the list state. -/
theorem ListState.insertFree {s : State} {H : Heap} (hS : ListState s H) {b : Nat}
    (hu : ¬Listed H b) (h0 : 0 < b) (hb : b < s.lib.brk)
    (hap : ∀ y, Listed H y → LinksApart (isMiniBlock s b) b (decide (y ∈ H.mini)) y) :
    ListState (insertFree s b) (H.push b (getSize s b)) ∧
      Frame s.mem (insertFree s b).mem
        fun a => (b + 8 ≤ a ∧ a < linkEnd (isMiniBlock s b) b) ∨ InLinks H a := by
  have hblt : b < 2 ^ 64 := hb.trans_le hS.brk
  cases hm : isMiniBlock s b
  · -- a bucket
    have hsz : getSize s b ≠ minBlockSize := by simpa [isMiniBlock] using hm
    have hc := findClass_lt (getSize s b)
    have hapB : ∀ y, Listed H y → LinksApart false b (decide (y ∈ H.mini)) y := hm ▸ hap
    have hwn : b + 8 ≤ nextField b ∧ nextField b + 8 ≤ linkEnd false b := by
      simp [nextField, linkEnd]
    have hwp : b + 8 ≤ prevField b ∧ prevField b + 8 ≤ linkEnd false b := by
      simp [prevField, linkEnd]
    unfold Model.insertFree
    simp only [hm, Bool.false_eq_true, ↓reduceIte, hS.segHead _ hc]
    rcases hs : H.seg (findClass (getSize s b)) with _ | ⟨y, l⟩
    · -- an empty bucket: both links of `b` are `NULL`
      simp only [List.headD_nil, ne_eq, not_true_eq_false, ↓reduceIte]
      refine ⟨hS.of_push_seg hu h0 hb hap hsz
        ((hS.setWord_apart hapB hwn 0).setWord_apart hapB hwp 0) ?_ (by simp [hs]) rfl,
        (frame_own hwn _ _).comp (frame_own hwp _ _)⟩
      rw [hs, State.setWord_mem, readWord_write_disj (by unfold Disj prevField nextField; omega)]
      exact readWord_writeWord_of_lt (Nat.two_pow_pos 64)
    · -- the old head `y` gets `prev := b`, and `b.next := y`
      have hyc : y ∈ H.seg (findClass (getSize s b)) := by simp [hs]
      have hy : Listed H y := .inr ⟨_, hc, hyc⟩
      simp only [List.headD_cons, ne_eq, (hS.pos y hy).ne', not_false_eq_true, ↓reduceIte]
      refine ⟨hS.of_push_seg hu h0 hb hap hsz
        ((hS.setWord_headPrev hc hs b).setWord_apart hapB hwn y) ?_ (fun z hz => ?_) rfl,
        ((frame_inLinks hy (hS.prev_word hc hyc) _ _).mono fun _ h => .inr h).comp
          (frame_own hwn _ _)⟩
      · rw [hs]
        exact readWord_writeWord_of_lt (hS.lt_word hy)
      · rw [hs] at hz
        cases Option.mem_some_iff.1 hz
        rw [State.setWord_mem,
          readWord_write_disj (disj_of_apart (hapB y hy) hwn (hS.prev_word hc hyc))]
        exact readWord_writeWord_of_lt hblt
  · -- the mini list
    have hsz : getSize s b = minBlockSize := by simpa [isMiniBlock] using hm
    have hpush : H.push b (getSize s b) = { H with mini := b :: H.mini } := by
      simp [Heap.push, hsz]
    have hapB : ∀ y, Listed H y → LinksApart true b (decide (y ∈ H.mini)) y := hm ▸ hap
    have hw : b + 8 ≤ miniNextField b ∧ miniNextField b + 8 ≤ linkEnd true b := by
      simp [miniNextField, linkEnd]
    have ht := hS.setWord_apart hapB hw s.miniList
    rw [insertFree_of_mini hm]
    refine ⟨?_, frame_own hw _ _⟩
    refine hS.of_push hu h0 hb hap ?_ ?_ (fun i hi => ?_) (fun i hi => ?_) rfl <;> rw [hpush]
    · rfl
    · refine ⟨?_, ht.miniLinks⟩
      rw [State.setWord_mem, readWord_writeWord_of_lt (hS.miniHead ▸ headD_lt hS.brk
        fun x hx => hS.lt_brk x (.inl hx)), hS.miniHead]
    · exact ht.segHead i hi
    · exact ht.segLinks i hi

/-- Deleting a node that has a predecessor. -/
theorem erase_around {pre post : List Nat} {P b : Nat} (h : b ∉ pre ++ P :: post) :
    (pre ++ P :: b :: post).erase b = pre ++ P :: post := by
  have hP : b ≠ P := fun e => h (by simp [e])
  rw [List.erase_append_right _ fun hb => h (List.mem_append_left _ hb),
    List.erase_cons_tail (by simpa using Ne.symm hP), List.erase_cons_head]

/-- The mini-list scan. From the head, `while (curr->next != mini_block)` stops at the
predecessor of `mini_block` once the fuel exceeds the number of nodes before it. -/
theorem miniScan_finds {m : Mem} {target p : Nat} {post : List Nat} :
    ∀ {pre : List Nat} {fuel : Nat}, MiniLinks m (pre ++ p :: target :: post) →
      target ∉ pre → target ≠ p → pre.length < fuel →
      miniScan m target fuel ((pre ++ [p]).headD 0) = some p
  | _, 0, _, _, _, hlen => absurd hlen (Nat.not_lt_zero _)
  | [], _ + 1, h, _, _, _ => by simp [miniScan, h.1]
  | y :: pre, fuel + 1, h, hnot, hne, hlen => by
    rw [List.cons_append, miniLinks_cons] at h
    have hz : (pre ++ [p]).headD 0 ≠ target := by
      cases pre with
      | nil => exact Ne.symm hne
      | cons z _ => exact fun h => hnot (by simp [← h])
    rw [headD_append_cons pre p _ []] at h
    simp only [List.cons_append, List.headD_cons, miniScan, h.1, ne_eq, hz, not_false_eq_true,
      ↓reduceIte]
    exact miniScan_finds h.2 (fun h' => hnot (List.mem_cons_of_mem _ h')) hne
      (by simp only [List.length_cons] at hlen; omega)

section Remove

variable {s : State} {H : Heap} (hS : ListState s H) {b : Nat}
include hS

/-- Bypass a bucket node. With `b` the successor of `P` on the bucket of `size`, a
memory that gives `P` the `next` after `b` and the node after `b` the `prev` `P`, and keeps
every word apart from these two, holds the lists with `b` deleted. -/
theorem ListState.bypass {size : Nat} (hm : size ≠ minBlockSize) {pre post : List Nat}
    {P : Nat} (hs : H.seg (findClass size) = pre ++ P :: b :: post) {m : Mem}
    (hn : readWord m (nextField P) = post.headD 0)
    (hp : ∀ y ∈ post.head?, readWord m (prevField y) = P)
    (hk : ∀ a, Disj (nextField P) a → (∀ y ∈ post.head?, Disj (prevField y) a) →
      readWord m a = readWord s.mem a) :
    ListState { s with mem := m } (H.erase b size) := by
  have hc := findClass_lt size
  have hin : b ∈ H.listFor size := by simp [Heap.listFor, hm, hs]
  obtain ⟨hP, hBn, hN⟩ := nodup_around (hs ▸ hS.segNodup _ hc)
  have hlinks := hS.segLinks _ hc
  rw [hs] at hlinks
  have hPc : P ∈ H.seg (findClass size) := by rw [hs]; simp
  have hNc : ∀ y ∈ post.head?, y ∈ H.seg (findClass size) := fun y hy => by
    rw [hs]; simp [List.mem_of_mem_head? hy]
  -- a link word is kept unless it is `P`'s `next` or the `prev` of the node after `b`
  have hkeep : ∀ x a, Listed H x → x + 8 ≤ a → a + 8 ≤ linkEnd (decide (x ∈ H.mini)) x →
      (x = P → Disj (nextField P) a) → (∀ y ∈ post.head?, x = y → Disj (prevField y) a) →
      readWord m a = readWord s.mem a := fun x a hx h1 h2 hxP hxN => by
    refine hk a ?_ fun y hy => ?_
    · by_cases e : x = P
      · exact hxP e
      · exact hS.disj (.inr ⟨_, hc, hPc⟩) hx (Ne.symm e) (hS.next_word hc hPc) ⟨h1, h2⟩
    · by_cases e : x = y
      · exact hxN y hy e
      · exact hS.disj (.inr ⟨_, hc, hNc y hy⟩) hx (Ne.symm e) (hS.prev_word hc (hNc y hy))
          ⟨h1, h2⟩
  refine hS.of_erase hin ?_ ?_ (fun i hi => ?_) (fun i hi => ?_) rfl
  · rw [Heap.erase_mini, if_neg hm]
    exact hS.miniHead
  · rw [Heap.erase_mini, if_neg hm]
    refine hS.miniLinks.transport fun x hx => hkeep x _ (.inl hx) (miniNext_word hx).1
      (miniNext_word hx).2 (fun e => ?_) fun y hy e => ?_
    · exact absurd hPc (hS.miniSeg x hx _ hc ∘ (e ▸ ·))
    · exact absurd (hNc y hy) (hS.miniSeg x hx _ hc ∘ (e ▸ ·))
  · rw [Heap.erase_seg]
    split_ifs with h
    · show s.segList i = _
      rw [h.2, hS.segHead _ hc, hs, erase_around hBn]
      exact headD_append_cons pre P _ _
    · exact hS.segHead i hi
  · have hnext : ∀ x ∈ H.seg i, x ≠ P →
        readWord m (nextField x) = readWord s.mem (nextField x) :=
      fun x hx hxP => hkeep x _ (.inr ⟨i, hi, hx⟩) (hS.next_word hi hx).1 (hS.next_word hi hx).2
        (absurd · hxP) fun y _ e => by subst e; unfold Disj prevField nextField; omega
    have hprev : ∀ x ∈ H.seg i, x ∉ post.head? →
        readWord m (prevField x) = readWord s.mem (prevField x) :=
      fun x hx hxN => hkeep x _ (.inr ⟨i, hi, hx⟩) (hS.prev_word hi hx).1 (hS.prev_word hi hx).2
        (fun e => by subst e; unfold Disj nextField prevField; omega)
        fun y hy e => absurd (e ▸ hy) hxN
    rw [Heap.erase_seg]
    split_ifs with h
    · obtain ⟨-, rfl⟩ := h
      rw [hs, erase_around hBn]
      refine hlinks.unlink hn hp (fun z hz => hnext z ?_ fun e => hP (e ▸ hz))
        fun z hz => hprev z ?_ fun h' => hN z h' hz
      · rw [hs]
        exact (((List.sublist_cons_self b post).trans (List.sublist_cons_self P _)).append_left
          pre).subset hz
      · rw [hs]
        exact ((((List.tail_sublist post).trans (List.sublist_cons_self b post)).cons₂
          P).append_left pre).subset hz
    · -- another bucket holds neither `P` nor the node after `b`
      have hout : ∀ x ∈ H.seg i, x ∉ H.seg (findClass size) :=
        fun x hx hxc => h ⟨hm, hS.segSeg i hi _ hc x hx hxc⟩
      refine (hS.segLinks i hi).transport (fun x hx => hnext x hx fun e => hout x hx (e ▸ hPc))
        fun x hx => hprev x (List.mem_of_mem_tail hx) fun hxN =>
          hout x (List.mem_of_mem_tail hx) (hNc x hxN)

/-- `remove_free` on the mini list: drop the only node, pop the head, or scan for the
predecessor and bypass the block. -/
theorem ListState.removeFree_mini (hm : getSize s b = minBlockSize) (hin : b ∈ H.mini) :
    ∃ s', removeFree s b = some s' ∧ ListState s' (H.erase b (getSize s b)) ∧
      Frame s.mem s'.mem (InLinks H) := by
  have herase : H.erase b (getSize s b) = { H with mini := H.mini.erase b } := by
    simp [Heap.erase, hm]
  have hlf : b ∈ H.listFor (getSize s b) := by simp [Heap.listFor, hm, hin]
  have hmini : isMiniBlock s b = true := by simp [isMiniBlock, hm]
  obtain ⟨x, l, hxl⟩ := List.exists_cons_of_ne_nil (List.ne_nil_of_mem hin)
  have hlinks := hS.miniLinks
  rw [hxl] at hlinks
  have hhead : s.miniList = x := by rw [hS.miniHead, hxl]; rfl
  simp only [Model.removeFree, hmini, ↓reduceIte, hhead, hlinks.1]
  rcases l with _ | ⟨y, l⟩
  · -- the only node
    have hbx : b = x := by simpa [hxl] using hin
    refine ⟨{ s with miniList := 0 }, by simp, hS.of_erase hlf ?_ ?_ (fun i hi => ?_)
      (fun i hi => ?_) rfl, Frame.refl _ _⟩ <;> rw [herase]
    · simp [hxl, hbx]
    · simp [hxl, hbx]
    · exact hS.segHead i hi
    · exact hS.segLinks i hi
  have hy0 : y ≠ 0 := (hS.pos y (.inl (by simp [hxl]))).ne'
  by_cases hbx : b = x
  · -- the head
    refine ⟨{ s with miniList := y }, by simp [hy0, hbx], hS.of_erase hlf ?_ ?_ (fun i hi => ?_)
      (fun i hi => ?_) rfl, Frame.refl _ _⟩ <;> rw [herase]
    · simp [hxl, hbx]
    · simpa [hxl, hbx] using hlinks.2
    · exact hS.segHead i hi
    · exact hS.segLinks i hi
  -- a later node: the scan stops at its predecessor `P`
  obtain ⟨pre, P, post, hdec⟩ := exists_pred (hxl ▸ hin) hbx
  rw [hdec] at hxl hlinks
  obtain ⟨hP, hBn, -⟩ := nodup_around (hxl ▸ hS.miniNodup)
  have hPm : P ∈ H.mini := by simp [hxl]
  have hscan : miniScan s.mem b (loopFuel s) x = some P := by
    have hx : x = (pre ++ [P]).headD 0 := by
      have := congrArg (List.headD · 0) hdec
      simp only [List.headD_cons] at this
      rw [this, headD_append_cons pre P _ []]
    rw [hx]
    refine miniScan_finds hlinks (fun h => hBn (List.mem_append_left _ h))
      (fun h => hBn (by simp [h])) ?_
    have := length_le_of_nodup (n := s.lib.brk) hS.miniNodup fun z hz => hS.lt_brk z (.inl hz)
    rw [hxl] at this
    simp only [List.length_append, List.length_cons] at this
    simp only [loopFuel]
    omega
  have hBnext : readWord s.mem (miniNextField b) = post.headD 0 :=
    (MiniLinks.suffix (pre ++ [P]) (l := b :: post) (by simpa using hlinks)).1
  have hPw := miniNext_word hPm
  -- the other nodes keep their link words
  have hother : ∀ z a, Listed H z → z ≠ P → z + 8 ≤ a →
      a + 8 ≤ linkEnd (decide (z ∈ H.mini)) z →
      readWord (writeWord s.mem (miniNextField P) (post.headD 0)) a = readWord s.mem a :=
    fun z a hz hzP h1 h2 => hS.read_other (.inl hPm) hz hzP hPw ⟨h1, h2⟩ _ _
  refine ⟨s.setWord (miniNextField P) (readWord s.mem (miniNextField b)),
    by simp [hy0, hbx, hscan], hS.of_erase hlf ?_ ?_ (fun i hi => ?_) (fun i hi => ?_) rfl,
    frame_inLinks (.inl hPm) hPw _ _⟩ <;>
    rw [herase, hBnext]
  · rw [State.setWord_miniList, hhead, hxl, erase_around hBn]
    exact (congrArg (List.headD · 0) hdec).trans (headD_append_cons pre P _ _)
  · rw [hxl, erase_around hBn]
    refine hlinks.unlink (readWord_writeWord_of_lt (hBnext ▸ readWord_lt _ _)) fun z hz => ?_
    have hzm : z ∈ H.mini := by
      rw [hxl]; rcases List.mem_append.1 hz with h | h <;> simp [h]
    exact hother z _ (.inl hzm) (fun e => hP (e ▸ hz)) (miniNext_word hzm).1 (miniNext_word hzm).2
  · exact hS.segHead i hi
  · refine (hS.segLinks i hi).transport (fun z hz => ?_) fun z hz => ?_
    · exact hother z _ (.inr ⟨i, hi, hz⟩) (fun e => hS.miniSeg P hPm i hi (e ▸ hz))
        (hS.next_word hi hz).1 (hS.next_word hi hz).2
    · have hz' := List.mem_of_mem_tail hz
      exact hother z _ (.inr ⟨i, hi, hz'⟩) (fun e => hS.miniSeg P hPm i hi (e ▸ hz'))
        (hS.prev_word hi hz').1 (hS.prev_word hi hz').2

/-- `remove_free` on a bucket: the head moves `seg_list[c]` on; any other node is bypassed
through its `prev` word, which holds its predecessor. -/
theorem ListState.removeFree_seg (hm : getSize s b ≠ minBlockSize)
    (hin : b ∈ H.seg (findClass (getSize s b))) :
    ∃ s', removeFree s b = some s' ∧ ListState s' (H.erase b (getSize s b)) ∧
      Frame s.mem s'.mem (InLinks H) := by
  have hc := findClass_lt (getSize s b)
  have herase : H.erase b (getSize s b) = { H with
      seg := Function.update H.seg (findClass (getSize s b))
        ((H.seg (findClass (getSize s b))).erase b) } := by
    simp [Heap.erase, hm]
  have hlf : b ∈ H.listFor (getSize s b) := by simp [Heap.listFor, hm, hin]
  have hmini : isMiniBlock s b = false := by simp [isMiniBlock, hm]
  obtain ⟨x, l, hxl⟩ := List.exists_cons_of_ne_nil (List.ne_nil_of_mem hin)
  have hlinks := hS.segLinks _ hc
  rw [hxl] at hlinks
  have hhead : s.segList (findClass (getSize s b)) = x := by rw [hS.segHead _ hc, hxl]; rfl
  by_cases hbx : b = x
  · -- the head
    subst hbx
    refine ⟨{ s with segList := Function.update s.segList (findClass (getSize s b)) (l.headD 0) },
      by simp [Model.removeFree, hmini, isHead, hhead, hlinks.1], hS.of_erase hlf ?_ ?_
      (fun i hi => ?_) (fun i hi => ?_) rfl, Frame.refl _ _⟩ <;> rw [herase]
    · exact hS.miniHead
    · exact hS.miniLinks
    · simp only [Function.update_apply]
      split_ifs with h
      · rw [hxl, List.erase_cons_head]
      · exact hS.segHead i hi
    · simp only [Function.update_apply]
      split_ifs with h
      · rw [hxl, List.erase_cons_head]
        exact hlinks.2.2
      · exact hS.segLinks i hi
  -- a later node `b`, after `P`
  obtain ⟨pre, P, post, hdec⟩ := exists_pred (hxl ▸ hin) hbx
  rw [hdec] at hxl hlinks
  have hlB := SegLinks.suffix pre hlinks
  have hPin : P ∈ H.seg (findClass (getSize s b)) := by rw [hxl]; simp
  have hPl : Listed H P := .inr ⟨_, hc, hPin⟩
  have hrm : removeFree s b = if post.headD 0 = 0 then
      some (s.setWord (nextField P) 0)
    else some ((s.setWord (nextField P) (post.headD 0)).setWord (prevField (post.headD 0)) P) := by
    simp [Model.removeFree, hmini, isHead, hhead, hbx, hlB.2.1 _ rfl, hlB.2.2.1]
  cases post with
  | nil =>
    -- the tail: `prev->next = NULL`
    exact ⟨s.setWord (nextField P) 0, by simpa using hrm,
      hS.bypass hm hxl (readWord_writeWord_of_lt (Nat.two_pow_pos 64)) (by simp)
        fun a h _ => readWord_write_disj h, frame_inLinks hPl (hS.next_word hc hPin) _ _⟩
  | cons N post =>
    -- the middle: `prev->next = next`, `next->prev = prev`
    have hNin : N ∈ H.seg (findClass (getSize s b)) := by rw [hxl]; simp
    have hNl : Listed H N := .inr ⟨_, hc, hNin⟩
    have hNP : N ≠ P := fun e => (nodup_around (hxl ▸ hS.segNodup _ hc)).1 (by simp [e])
    refine ⟨(s.setWord (nextField P) N).setWord (prevField N) P,
      by simpa [(hS.pos N hNl).ne'] using hrm, hS.bypass hm hxl ?_ (fun y hy => ?_)
        (fun a h1 h2 => ?_),
      (frame_inLinks hPl (hS.next_word hc hPin) _ _).comp
        (frame_inLinks hNl (hS.prev_word hc hNin) _ _)⟩
    · show readWord (writeWord (writeWord s.mem (nextField P) N) (prevField N) P) (nextField P) = N
      rw [readWord_write_disj (hS.disj hNl hPl hNP (hS.prev_word hc hNin) (hS.next_word hc hPin))]
      exact readWord_writeWord_of_lt (hS.lt_word hNl)
    · cases Option.mem_some_iff.1 hy
      exact readWord_writeWord_of_lt (hS.lt_word hPl)
    · show readWord (writeWord (writeWord s.mem (nextField P) N) (prevField N) P) a = _
      rw [readWord_write_disj (h2 N rfl), readWord_write_disj h1]

/-- `remove_free` on a node of the list its size selects. -/
theorem ListState.removeFree (hin : b ∈ H.listFor (getSize s b)) :
    ∃ s', removeFree s b = some s' ∧ ListState s' (H.erase b (getSize s b)) ∧
      Frame s.mem s'.mem (InLinks H) := by
  unfold Heap.listFor at hin
  split_ifs at hin with hm
  · exact hS.removeFree_mini hm hin
  · exact hS.removeFree_seg hm hin

end Remove

end SegAlloc.Refine
