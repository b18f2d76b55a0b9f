import SegAlloc.View.Inv

/-!
# Representation of a heap in memory

`Rep s H` says the state `s` holds the metadata `H`: the header of every block,
the footer of every free block that is not mini, the links of the mini list
(`next` at `+8`) and of every bucket (`next` at `+16`, and `prev` at `+8` of
every node but the head, which `insert_free` never writes), and the list heads
in `mini_list` and `seg_list`.

The frame lemmas at the end show that bytes changed only inside the bodies of free
blocks, off their footers, keep every header and footer (`Hdrs.of_frame`).
-/

namespace SegAlloc.Refine

open SegAlloc.Machine SegAlloc.Model SegAlloc.View

/-- Two words do not overlap. -/
def Disj (w a : Nat) : Prop := w + 8 ≤ a ∨ a + 8 ≤ w

/-- The header of `b`, and its footer if it has one, hold its packed word. -/
def HdrOk (m : Mem) (b : Blk) : Prop :=
  readWord m b.addr = b.header ∧ (b.hasFooter = true → readWord m b.footer = b.header)

/-- The mini list `l`: each node's `next` word holds its successor, the last `NULL`. -/
def MiniLinks (m : Mem) : List Nat → Prop
  | [] => True
  | x :: l => readWord m (miniNextField x) = l.headD 0 ∧ MiniLinks m l

/-- A bucket `l`: each node's `next` word holds its successor (the last `NULL`) and the
`prev` word of each node but the head holds its predecessor. -/
def SegLinks (m : Mem) : List Nat → Prop
  | [] => True
  | x :: l => readWord m (nextField x) = l.headD 0 ∧
      (∀ y ∈ l.head?, readWord m (prevField y) = x) ∧ SegLinks m l

/-- The prologue, and the header and footer of every block, hold their words. -/
def Hdrs (m : Mem) (H : Heap) : Prop :=
  readWord m H.lib.lo = packAll 0 true false false ∧ ∀ b ∈ H.blocks, HdrOk m b

/-- The state `s` holds the heap `H`. -/
structure Rep (s : State) (H : Heap) : Prop where
  lib : s.lib = H.lib
  start : s.heapStart = H.lib.lo + 8
  lo : H.lib.lo % 16 = 0
  lo_pos : 0 < H.lib.lo
  brk : H.lib.brk ≤ 2 ^ 64
  layout : Layout H
  hdrs : Hdrs s.mem H
  miniHead : s.miniList = H.mini.headD 0
  miniLinks : MiniLinks s.mem H.mini
  segHead : ∀ i < LENGTH, s.segList i = (H.seg i).headD 0
  segLinks : ∀ i < LENGTH, SegLinks s.mem (H.seg i)

@[simp] theorem miniLinks_nil (m : Mem) : MiniLinks m [] := trivial

@[simp] theorem miniLinks_cons (m : Mem) (x : Nat) (l : List Nat) :
    MiniLinks m (x :: l) ↔ readWord m (miniNextField x) = l.headD 0 ∧ MiniLinks m l := Iff.rfl

@[simp] theorem segLinks_nil (m : Mem) : SegLinks m [] := trivial

@[simp] theorem segLinks_cons (m : Mem) (x : Nat) (l : List Nat) :
    SegLinks m (x :: l) ↔ readWord m (nextField x) = l.headD 0 ∧
      (∀ y ∈ l.head?, readWord m (prevField y) = x) ∧ SegLinks m l := Iff.rfl

/-- Links read only the `next` words of the nodes. -/
theorem MiniLinks.transport {m m' : Mem} :
    ∀ {l : List Nat}, MiniLinks m l →
      (∀ x ∈ l, readWord m' (miniNextField x) = readWord m (miniNextField x)) → MiniLinks m' l
  | [], _, _ => trivial
  | x :: l, ⟨h1, h2⟩, hag => ⟨(hag x (by simp)).trans h1,
      MiniLinks.transport h2 fun z hz => hag z (List.mem_cons_of_mem _ hz)⟩

/-- Bucket links read the `next` word of every node and the `prev` word of every node
but the head. -/
theorem SegLinks.transport {m m' : Mem} :
    ∀ {l : List Nat}, SegLinks m l →
      (∀ x ∈ l, readWord m' (nextField x) = readWord m (nextField x)) →
      (∀ y ∈ l.tail, readWord m' (prevField y) = readWord m (prevField y)) → SegLinks m' l
  | [], _, _, _ => trivial
  | x :: l, ⟨h1, h2, h3⟩, hn, hp => by
    refine ⟨(hn x (by simp)).trans h1, fun y hy => ?_, ?_⟩
    · exact (hp y (List.mem_of_mem_head? hy)).trans (h2 y hy)
    · exact SegLinks.transport h3 (fun z hz => hn z (List.mem_cons_of_mem _ hz))
        (fun z hz => hp z (List.mem_of_mem_tail hz))

/-- Unlink from the mini list. Deleting the successor of `p` rewrites `p`'s `next`
word; every other node keeps its word. -/
theorem MiniLinks.unlink {m m' : Mem} {p x : Nat} {post : List Nat} :
    ∀ {pre : List Nat}, MiniLinks m (pre ++ p :: x :: post) →
      readWord m' (miniNextField p) = post.headD 0 →
      (∀ y ∈ pre ++ post, readWord m' (miniNextField y) = readWord m (miniNextField y)) →
      MiniLinks m' (pre ++ p :: post)
  | [], ⟨_, _, h⟩, hp, hag => ⟨hp, h.transport fun y hy => hag y (by simpa using hy)⟩
  | y :: pre, ⟨h1, h2⟩, hp, hag => by
    refine ⟨?_, MiniLinks.unlink h2 hp fun z hz => hag z (by simp [hz])⟩
    rw [hag y (by simp), h1]
    cases pre <;> rfl

/-- Unlink from a bucket. Deleting the successor of `p` rewrites `p`'s `next` word and
the `prev` word of the node after; every other word the links read is kept. -/
theorem SegLinks.unlink {m m' : Mem} {p x : Nat} {post : List Nat} :
    ∀ {pre : List Nat}, SegLinks m (pre ++ p :: x :: post) →
      readWord m' (nextField p) = post.headD 0 →
      (∀ y ∈ post.head?, readWord m' (prevField y) = p) →
      (∀ y ∈ pre ++ post, readWord m' (nextField y) = readWord m (nextField y)) →
      (∀ y ∈ pre ++ p :: post.tail, readWord m' (prevField y) = readWord m (prevField y)) →
      SegLinks m' (pre ++ p :: post)
  | [], ⟨_, _, _, _, h⟩, hn, hp, hagn, hagp =>
    ⟨hn, hp, h.transport (fun y hy => hagn y (by simpa using hy))
      fun y hy => hagp y (by simp [hy])⟩
  | y :: pre, h, hn, hp, hagn, hagp => by
    rw [List.cons_append, segLinks_cons] at h
    obtain ⟨h1, h2, h3⟩ := h
    have hh : (pre ++ p :: post).head? = (pre ++ p :: x :: post).head? := by cases pre <;> rfl
    refine ⟨?_, fun z hz => ?_, SegLinks.unlink h3 hn hp (fun z hz => hagn z (by simp [hz]))
      fun z hz => hagp z (List.mem_cons_of_mem _ hz)⟩
    · rw [hagn y (by simp), h1]
      cases pre <;> rfl
    · have hz' : z ∈ pre ++ p :: post.tail := by
        cases pre <;> simp_all
      rw [hagp z (List.mem_cons_of_mem _ hz')]
      exact h2 z (hh ▸ hz)

theorem MiniLinks.suffix {m : Mem} {l : List Nat} :
    ∀ (pre : List Nat), MiniLinks m (pre ++ l) → MiniLinks m l
  | [], h => h
  | _ :: pre, h => MiniLinks.suffix pre h.2

theorem SegLinks.suffix {m : Mem} {l : List Nat} :
    ∀ (pre : List Nat), SegLinks m (pre ++ l) → SegLinks m l
  | [], h => h
  | _ :: pre, h => SegLinks.suffix pre h.2.2

/-- A node other than the head has a predecessor. -/
theorem exists_pred {x b : Nat} {l : List Nat} (hb : b ∈ x :: l) (hne : b ≠ x) :
    ∃ pre p post, x :: l = pre ++ p :: b :: post := by
  obtain ⟨s, t, hst⟩ := List.append_of_mem (List.mem_of_ne_of_mem hne hb)
  rcases List.eq_nil_or_concat s with rfl | ⟨L, p, rfl⟩
  · exact ⟨[], x, t, by simp [hst]⟩
  · exact ⟨x :: L, p, t, by simp [hst]⟩

/-- What distinctness says of a list cut around two neighbours `p`, `b`. -/
theorem nodup_around {pre post : List Nat} {p b : Nat} (h : (pre ++ p :: b :: post).Nodup) :
    p ∉ pre ++ post ∧ b ∉ pre ++ p :: post ∧ ∀ y ∈ post.head?, y ∉ pre ++ p :: post.tail := by
  rw [List.nodup_append, List.nodup_cons, List.nodup_cons] at h
  obtain ⟨-, ⟨hp, hb, hpost⟩, hdisj⟩ := h
  refine ⟨fun h => ?_, fun h => ?_, fun y hy h => ?_⟩
  · rcases List.mem_append.1 h with h | h
    · exact hdisj h (List.mem_cons_self _ _)
    · exact hp (List.mem_cons_of_mem _ h)
  · rcases List.mem_append.1 h with h | h
    · exact hdisj h (by simp)
    · rcases List.mem_cons.1 h with rfl | h
      · exact hp (List.mem_cons_self _ _)
      · exact hb h
  · cases post with
    | nil => simp at hy
    | cons N post =>
      simp only [List.head?_cons, Option.mem_def, Option.some.injEq] at hy
      subst hy
      rcases List.mem_append.1 h with h | h
      · exact hdisj h (by simp)
      · rcases List.mem_cons.1 h with rfl | h
        · exact hp (by simp)
        · exact (List.nodup_cons.1 hpost).1 h

theorem headD_append_cons (pre : List Nat) (p : Nat) (l l' : List Nat) :
    (pre ++ p :: l).headD 0 = (pre ++ p :: l').headD 0 := by
  cases pre <;> rfl

/-- A list of distinct addresses below `n` has at most `n` entries. -/
theorem length_le_of_nodup {l : List Nat} {n : Nat} (hl : l.Nodup) (h : ∀ x ∈ l, x < n) :
    l.length ≤ n := by
  have := (List.subperm_of_subset hl fun x hx => List.mem_range.2 (h x hx)).length_le
  rwa [List.length_range] at this

/-- The head of a list is its first element, or `NULL` when it is empty. -/
theorem headD_eq_zero {l : List Nat} (hl : ∀ x ∈ l, 0 < x) : l.headD 0 = 0 ↔ l = [] := by
  cases l with
  | nil => simp
  | cons x l => have := hl x (by simp); simp; omega

section Frame

variable {H : Heap} {m : Mem} {w v : Nat}

theorem readWord_write_disj (h : Disj w a) : readWord (writeWord m w v) a = readWord m a :=
  readWord_writeWord_of_disjoint h

/-- The words `HdrOk` reads lie inside the block. -/
theorem hdr_in_span (b : Blk) : b.addr ≤ b.addr ∧ b.addr + 8 ≤ b.addr + b.span := by
  simp only [Blk.span]; omega

theorem footer_in_span {b : Blk} (h16 : 16 ≤ b.size) :
    b.addr ≤ b.footer ∧ b.footer + 8 ≤ b.addr + b.span := by
  rw [Blk.span_eq (by omega), Blk.footer]
  omega

/-- Every byte that differs between `m` and `m'` satisfies `P`. -/
def Frame (m m' : Mem) (P : Nat → Prop) : Prop := ∀ x, m' x ≠ m x → P x

/-- `x` lies in the body of a free block: past its header, inside its size. -/
def InFree (H : Heap) (x : Nat) : Prop :=
  ∃ b ∈ H.blocks, b.alloc = false ∧ b.addr + 8 ≤ x ∧ x < b.addr + b.size

/-- `x` lies in the body of a free block and before its footer, off every word `Hdrs`
reads. -/
def InFreeBody (H : Heap) (x : Nat) : Prop :=
  ∃ b ∈ H.blocks, b.alloc = false ∧ b.addr + 8 ≤ x ∧ x < b.addr + b.size ∧
    (b.hasFooter = true → x < b.footer)

theorem InFreeBody.inFree {H : Heap} {x : Nat} (h : InFreeBody H x) : InFree H x :=
  let ⟨b, hb, hf, h1, h2, _⟩ := h
  ⟨b, hb, hf, h1, h2⟩

theorem Frame.refl (m : Mem) (P : Nat → Prop) : Frame m m P := fun _ h => absurd rfl h

/-- A byte outside the frame is kept. -/
theorem Frame.keep {m m' : Mem} {P : Nat → Prop} (h : Frame m m' P) {x : Nat} (hx : ¬P x) :
    m' x = m x :=
  by_contra fun h' => hx (h x h')

theorem Frame.trans {m₁ m₂ m₃ : Mem} {P Q : Nat → Prop} (h₁ : Frame m₁ m₂ P)
    (h₂ : Frame m₂ m₃ Q) : Frame m₁ m₃ fun x => P x ∨ Q x := fun x hx => by
  by_cases h : m₂ x = m₁ x
  · exact .inr (h₂ x (h ▸ hx))
  · exact .inl (h₁ x h)

theorem Frame.comp {m₁ m₂ m₃ : Mem} {P : Nat → Prop} (h₁ : Frame m₁ m₂ P) (h₂ : Frame m₂ m₃ P) :
    Frame m₁ m₃ P := fun x hx => (h₁.trans h₂ x hx).elim id id

theorem Frame.mono {m m' : Mem} {P Q : Nat → Prop} (h : Frame m m' P) (hPQ : ∀ x, P x → Q x) :
    Frame m m' Q := fun x hx => hPQ x (h x hx)

theorem frame_update (m : Mem) {a : Nat} (v : UInt8) {P : Nat → Prop} (h : P a) :
    Frame m (Function.update m a v) P := fun x hx => by
  by_cases hxa : x = a
  · exact hxa ▸ h
  · exact absurd (Function.update_noteq hxa v m) hx

theorem frame_writeWord (m : Mem) (w v : Nat) :
    Frame m (writeWord m w v) fun x => w ≤ x ∧ x < w + 8 :=
  fun x hx => by
    by_contra h
    exact hx (writeWord_of_not_mem (by omega))

/-- A word no byte of which may have changed is kept. -/
theorem readWord_frame {m m' : Mem} {P : Nat → Prop} (h : Frame m m' P) {a : Nat}
    (ha : ∀ i < 8, ¬P (a + i)) : readWord m' a = readWord m a :=
  readWord_congr fun i hi => by_contra fun hne => ha i hi (h _ hne)

/-- Frame rule for headers. Bytes changed only in free bodies before the footers keep
the prologue and every header and footer. -/
theorem Hdrs.of_frame (hlay : Layout H) (h : Hdrs m H) {m' : Mem}
    (hfr : Frame m m' (InFreeBody H)) : Hdrs m' H := by
  -- the header or the footer of a block `Y` holds no byte of a free body
  have hkeep : ∀ Y ∈ H.blocks, ∀ r, Y.addr ≤ r → r + 8 ≤ Y.addr + Y.span →
      (r + 8 ≤ Y.addr + 8 ∨ Y.hasFooter = true ∧ Y.footer ≤ r) →
      readWord m' r = readWord m r :=
    fun Y hY r h1 h2 h3 => readWord_frame hfr fun i hi ⟨X, hX, hXf, hx1, hx2, hx3⟩ => by
      have hXs := hlay.free_size hX hXf
      by_cases he : X.addr = Y.addr
      · obtain rfl := hlay.eq_of_addr hX hY he
        rcases h3 with h3 | ⟨hf, h3⟩
        · omega
        · have := hx3 hf
          omega
      · have := hlay.sep hX hY he
        rw [Blk.span_eq (by omega)] at this
        omega
  refine ⟨?_, fun Y hY => ⟨?_, fun hf => ?_⟩⟩
  · refine (readWord_frame hfr fun i hi hx => ?_).trans h.1
    obtain ⟨X, hX, -, hx1, -⟩ := hx
    have := (hlay.mem hX).1
    omega
  · exact (hkeep Y hY _ le_rfl (hdr_in_span Y).2 (.inl le_rfl)).trans (h.2 Y hY).1
  · have h16 := (hlay.free_size hY (Blk.alloc_of_hasFooter hf)).1
    exact (hkeep Y hY _ (footer_in_span h16).1 (footer_in_span h16).2
      (.inr ⟨hf, le_rfl⟩)).trans ((h.2 Y hY).2 hf)

end Frame

end SegAlloc.Refine
