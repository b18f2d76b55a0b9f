import SegAlloc.Refine.Malloc
import SegAlloc.Refine.Extend
import SegAlloc.Refine.Fit
import SegAlloc.View.Api

/-!
# The interface refines the abstract operations

`malloc`, `free`, `realloc`, `calloc` and `mm_init` of the byte-level model
compute the results of the abstract operations and hold the abstract heaps after
them. Every byte they write lies outside the allocated payloads of the heap
before the call, except the payload that `free` and `realloc` end and the new
payload that `realloc` and `calloc` fill: a write into an allocated payload keeps
the representation (`Rep.write_payload`), which is also how the client's own
writes are allowed for.
-/

namespace SegAlloc.Refine

open SegAlloc.Machine SegAlloc.Model SegAlloc.View

/-- A byte is in an allocated payload exactly when it is in the payload of an
allocation. -/
theorem inPayload_iff {bs : List Blk} {x : Nat} :
    InPayload bs x ↔ ∃ p w, Holds bs p w ∧ p ≤ x ∧ x + 8 < p + w := by
  constructor
  · rintro ⟨b, hb, hba, h1, h2⟩
    exact ⟨_, _, ⟨b, hb, hba, by omega, rfl, rfl⟩, h1, by omega⟩
  · rintro ⟨p, w, ⟨b, hb, hba, -, rfl, rfl⟩, h1, h2⟩
    exact ⟨b, hb, hba, h1, by omega⟩

/-- Heaps with the same allocations have the same payloads. -/
theorem inPayload_congr {bs bs' : List Blk} (h : Holds bs' = Holds bs) {x : Nat} :
    InPayload bs' x ↔ InPayload bs x := by
  rw [inPayload_iff, inPayload_iff, h]

/-- Writes into allocated payloads keep the representation. Headers, footers and list
links lie in header words and free bodies, which no payload overlaps. -/
theorem Rep.write_payload {s : State} {H : Heap} (hR : Rep s H) (hL : Lists H) {m : Mem}
    (hfr : Frame s.mem m (InPayload H.blocks)) : Rep { s with mem := m } H := by
  have hlay := hR.layout
  have hkeep : ∀ b ∈ H.blocks, ∀ a, (b.addr = a ∨ b.alloc = false ∧ b.addr + 8 ≤ a ∧
      a + 8 ≤ b.addr + b.size) → readWord m a = readWord s.mem a := fun b hb a ha =>
    readWord_frame hfr fun i hi h => Owned.not_payload hlay (by
      rcases ha with rfl | ⟨hf, h1, h2⟩
      · exact .inl ⟨b, hb, by omega, by omega⟩
      · exact .inr ⟨b, hb, hf, by omega, by omega⟩) h
  have hlink : ∀ x, (x ∈ H.mini ∨ ∃ i, x ∈ H.seg i) → ∀ o, 8 ≤ o → o + 8 ≤ 16 ∨ (∃ i, x ∈ H.seg i) →
      o ≤ 16 → readWord m (x + o) = readWord s.mem (x + o) := by
    intro x hx o h8 ho ho'
    obtain ⟨b, hb, rfl, hbf, hbs⟩ : ∃ b ∈ H.blocks, b.addr = x ∧ b.alloc = false ∧
        o + 8 ≤ b.size := by
      rcases ho with ho | ⟨i, hi⟩
      · rcases hx with hx | ⟨i, hi⟩
        · obtain ⟨b, hb, h1, h2, h3⟩ := hL.mini x hx
          exact ⟨b, hb, h1, h2, by simp only [h3, minBlockSize, dsize, wsize]; omega⟩
        · obtain ⟨b, hb, h1, h2, h3, -⟩ := hL.seg_blk hlay hi; exact ⟨b, hb, h1, h2, by omega⟩
      · obtain ⟨b, hb, h1, h2, h3, -⟩ := hL.seg_blk hlay hi; exact ⟨b, hb, h1, h2, by omega⟩
    exact hkeep b hb _ (.inr ⟨hbf, by omega, by omega⟩)
  refine { hR with
    hdrs := ⟨?_, fun b hb => ⟨(hkeep b hb _ (.inl rfl)).trans (hR.hdrs.2 b hb).1, fun hf => ?_⟩⟩
    miniLinks := hR.miniLinks.transport fun x hx =>
      hlink x (.inl hx) 8 le_rfl (.inl (by omega)) (by omega)
    segLinks := fun i hi => (hR.segLinks i hi).transport
      (fun x hx => hlink x (.inr ⟨i, hx⟩) 16 (by omega) (.inr ⟨i, hx⟩) le_rfl)
      fun y hy => hlink y (.inr ⟨i, List.mem_of_mem_tail hy⟩) 8 le_rfl (.inl (by omega))
        (by omega) }
  · refine (readWord_frame hfr fun i hi ⟨b, hb, _, h1, _⟩ => ?_).trans hR.hdrs.1
    have := (hlay.mem hb).1
    omega
  · have hbf := Blk.alloc_of_hasFooter hf
    have := (hlay.free_size hb hbf).1
    exact (hkeep b hb _ (.inr ⟨hbf, by simp only [Blk.footer]; omega,
      by simp only [Blk.footer]; omega⟩)).trans ((hR.hdrs.2 b hb).2 hf)

section Malloc

variable {s : State} {H : Heap} (hR : Rep s H) (hW : WF H) {n : Nat} (hn : n ≤ 2 ^ 64 - 24)
include hR hW hn

/-- The body of `malloc` refines the abstract `malloc` for every request that does not
wrap, and writes no byte of an allocated payload. -/
theorem mallocInit_rep :
    ∃ s', mallocInit s n = some ((View.malloc H n).1, s') ∧ Rep s' (View.malloc H n).2 ∧
      Frame s.mem s'.mem (fun x => ¬InPayload H.blocks x) := by
  unfold mallocInit View.malloc
  by_cases h0 : n = 0
  · simp only [h0, if_true]
    exact ⟨s, rfl, hR, Frame.refl _ _⟩
  simp only [h0, if_false, asize_eq hn, findFit_eq hR hW.lists]
  set asize := (n + 23) / 16 * 16
  have h16 : 16 ≤ asize := by omega
  have hmod : asize % 16 = 0 := by omega
  by_cases hb : View.findFit H asize = 0
  · -- no block fits: the heap is extended
    have hz16 : 16 ≤ max asize chunksize := by omega
    have hzmod : max asize chunksize % 16 = 0 := by simp only [chunksize]; omega
    have hzlt : max asize chunksize < 2 ^ 64 := by simp only [chunksize]; omega
    obtain ⟨s₁, hext, hR₁, hfr₁⟩ := extendHeap_rep hR hW hz16 hzmod hzlt
    obtain ⟨hW₁, hh₁, -, -, hfound⟩ := hW.extend hR.lo hz16 hzmod hzlt
    have hh : Holds (View.extend H (max asize chunksize)).2.blocks = Holds H.blocks :=
      funext fun p => funext fun w => propext (hh₁ p w)
    simp only [hb, if_true, hext]
    by_cases he : (View.extend H (max asize chunksize)).1 = 0
    · simp only [he, if_true]
      exact ⟨s₁, rfl, hR₁, hfr₁⟩
    · obtain ⟨M, hM, hMa, hMf, -, hMz, -⟩ := hfound he
      obtain ⟨s₂, hpl, hR₂, hfr₂⟩ := place_rep hR₁ hW₁ hM hMf h16 hmod (by omega)
      simp only [he, if_false]
      rw [← hMa, hpl]
      exact ⟨s₂, rfl, hR₂, hfr₁.comp (hfr₂.payload fun x hx => (inPayload_congr hh).2 hx)⟩
  · -- a free block fits
    obtain ⟨X, hX, hXa, hXf, hXs, -⟩ := findFit_fits hW hR.lo_pos hb
    obtain ⟨s₂, hpl, hR₂, hfr₂⟩ := place_rep hR hW hX hXf h16 hmod hXs
    simp only [hb, if_false]
    rw [← hXa, hpl]
    exact ⟨s₂, rfl, hR₂, hfr₂⟩

/-- `malloc` refines the abstract `malloc` on an initialised heap. -/
theorem malloc_rep :
    ∃ s', Model.malloc s n = some ((View.malloc H n).1, s') ∧ Rep s' (View.malloc H n).2 ∧
      Frame s.mem s'.mem (fun x => ¬InPayload H.blocks x) := by
  rw [Model.malloc, if_neg (by rw [hR.start]; omega)]
  exact mallocInit_rep hR hW hn

end Malloc

/-- `free` refines the abstract `free` on the payload `p` of an allocation of `w` bytes;
besides that payload it writes no byte of an allocated payload. -/
theorem free_rep {s : State} {H : Heap} (hR : Rep s H) (hW : WF H) {p w : Nat}
    (hp : Holds H.blocks p w) :
    ∃ s', Model.free s p = some s' ∧ Rep s' (View.free H p) ∧
      Frame s.mem s'.mem (fun x => ¬InPayload H.blocks x ∨ (p ≤ x ∧ x + 8 < p + w)) := by
  obtain ⟨B, hB, hBa, hB0, rfl, rfl⟩ := hp
  obtain ⟨pre, post, hbl⟩ := List.append_of_mem hB
  have h16 : 16 ≤ B.size := by
    rcases (hW.layout.mem hB).2.2 with ⟨h, -⟩ | ⟨h, -⟩
    · exact absurd h hB0
    · exact h
  set B' : Blk := { B with alloc := false }
  obtain ⟨hR₁, -, hfr₁⟩ := hR.writePack_reheader hW.lists hbl
    (hW.lists.unlisted_of_alloc hW.layout hB hBa) (show B'.addr = B.addr from rfl)
    (show B'.size = B.size from rfl) (.inr h16)
  obtain ⟨s₂, hco, hR₂, hfr₂⟩ := coalesceBlock_rep hR₁ (hW.release hbl hBa h16)
  have hfree : View.free H (B.addr + 8) = (coalesce (H.withBlocks (pre ++ B' :: post)) B'.addr).2 := by
    simp only [View.free, show B.addr + 8 ≠ 0 by omega, if_false, payloadToHeader, wsize,
      Nat.add_sub_cancel, hW.layout.locate hbl]
  -- a payload other than `B`'s stays a payload
  have hpay : ∀ x, ¬InPayload (pre ++ B' :: post) x →
      ¬InPayload H.blocks x ∨ (B.addr + 8 ≤ x ∧ x + 8 < B.addr + 8 + B.size) := fun x hx => by
    by_contra hc
    push_neg at hc
    obtain ⟨⟨b, hb, hba, h1, h2⟩, hnot⟩ := hc
    by_cases hbB : b = B
    · subst hbB
      exact absurd (hnot h1) (by omega)
    · rw [hbl, List.mem_append, List.mem_cons] at hb
      exact hx ⟨b, by rcases hb with hb | rfl | hb <;> simp_all, hba, h1, h2⟩
  simp only [Model.free, show B.addr + 8 ≠ 0 by omega, if_false, payloadToHeader, wsize,
    Nat.add_sub_cancel, getSize_eq hR hB, getPrevAlloc_eq hR hB, getPrevMini_eq hR hB,
    writePrevAlloc_false]
  rw [show writePack s B.addr B.size false B.prevAlloc B.prevMini =
    writePack s B'.addr B'.size B'.alloc B'.prevAlloc B'.prevMini from rfl, hco, hfree]
  exact ⟨s₂, rfl, hR₂, ((hfr₁.mono fun x h => Owned.not_payload hR₁.layout h).comp hfr₂).mono
    fun x h => hpay x h⟩

/-- The new payload of a grant lies in no payload of the heap before it. -/
theorem Grants.fresh {H H₁ : Heap} (hlay₁ : Layout H₁) {n q w₀ : Nat} (hg : Grants H n q H₁)
    (hq : Holds H₁.blocks q w₀) (hnew : ∀ w, ¬Holds H.blocks q w) {x : Nat} (h1 : q ≤ x)
    (h2 : x + 8 < q + w₀) : ¬InPayload H.blocks x := fun hx => by
  obtain ⟨p, w, hp, h3, h4⟩ := inPayload_iff.1 hx
  obtain ⟨rfl, -⟩ := hlay₁.payload_unique (hg.holds hp) hq ⟨h3, h4⟩ ⟨h1, h2⟩
  exact hnew w hp

section Realloc

variable {s : State} {H : Heap} (hR : Rep s H) (hW : WF H)
include hR hW

/-- `realloc` refines the abstract `realloc`; besides `p`'s payload it writes no allocated
payload, and a non-`NULL` result holds the first `min(n, S - 8)` bytes of `p`'s payload. -/
theorem realloc_rep {p n : Nat} (hn : n ≤ 2 ^ 64 - 24) (hp : p = 0 ∨ ∃ w, Holds H.blocks p w) :
    ∃ s', Model.realloc s p n = some ((View.realloc H p n).1, s') ∧
      Rep s' (View.realloc H p n).2 ∧
      Frame s.mem s'.mem (fun x => ¬InPayload H.blocks x ∨ ((n = 0 ∨ (View.realloc H p n).1 ≠ 0) ∧
        ∃ w, Holds H.blocks p w ∧ p ≤ x ∧ x + 8 < p + w)) ∧
      ∀ w, Holds H.blocks p w → (View.realloc H p n).1 ≠ 0 → ∀ i < min n (w - 8),
        s'.mem ((View.realloc H p n).1 + i) = s.mem (p + i) := by
  unfold Model.realloc View.realloc
  by_cases hn0 : n = 0
  · simp only [hn0, if_true, ne_eq, not_true_eq_false, false_implies, implies_true, and_true]
    rcases hp with rfl | ⟨w, hw⟩
    · exact ⟨s, by simp [Model.free], by simpa [View.free] using hR, Frame.refl _ _⟩
    · obtain ⟨s', hf, hR', hfr⟩ := free_rep hR hW hw
      exact ⟨s', by rw [hf]; rfl, hR', hfr.mono fun x h => h.imp id fun h => ⟨.inl trivial, w, hw, h⟩⟩
  by_cases hp0 : p = 0
  · obtain ⟨s', hm, hR', hfr⟩ := malloc_rep hR hW hn
    subst hp0
    simp only [hn0, if_true, if_false, hm]
    refine ⟨s', rfl, hR', hfr.mono fun x h => .inl h, fun w hw => ?_⟩
    obtain ⟨b, -, -, -, hb, -⟩ := hw
    omega
  obtain ⟨w, hw⟩ := hp.resolve_left hp0
  obtain ⟨s₁, hm, hR₁, hfr₁⟩ := malloc_rep hR hW hn
  obtain ⟨hW₁, hg⟩ := hW.malloc hR.lo hR.lo_pos hn
  simp only [hn0, hp0, if_false, hm]
  by_cases hq : (View.malloc H n).1 = 0
  · simp only [hq, if_true, ne_eq, not_true_eq_false, false_implies, implies_true, and_true]
    exact ⟨s₁, rfl, hR₁, hfr₁.mono fun x h => .inl h⟩
  obtain ⟨w₀, hw₀, hq₁, -, hnew⟩ := hg.granted hq
  have hw₁ := hg.holds hw
  have hpq : p ≠ (View.malloc H n).1 := fun h => hnew w (h ▸ hw)
  -- the size `realloc` reads is that of `p`'s block
  obtain ⟨B, hB, -, hB0, hBp, hBw⟩ := hw₁
  have h16 : 16 ≤ w := by
    rcases (hW₁.layout.mem hB).2.2 with ⟨h, -⟩ | ⟨h, -⟩
    · exact absurd h hB0
    · omega
  have hgs : getSize s₁ (payloadToHeader p) = w := by
    rw [payloadToHeader, ← hBp, wsize, Nat.add_sub_cancel, getSize_eq hR₁ hB, hBw]
  have hcs : (if n < sub64 w wsize then n else sub64 w wsize) = min n (w - 8) := by
    have := (hR₁.size_ok hB).2
    have : sub64 w wsize = w - 8 := by unfold sub64 wsize; omega
    rw [this]
    split_ifs <;> omega
  simp only [hq, if_false, hgs, hcs]
  set q := (View.malloc H n).1
  set c := min n (w - 8)
  -- the copy lands in the new payload
  have hfrc : Frame s₁.mem (memcpy s₁.mem q p c) fun x => q ≤ x ∧ x < q + c := fun x hx => by
    by_contra h
    exact hx (memcpy_of_not_mem (by omega))
  have hR₂ := hR₁.write_payload hW₁.lists (hfrc.mono fun x h =>
    inPayload_iff.2 ⟨q, w₀, hq₁, h.1, by omega⟩)
  obtain ⟨s₃, hf, hR₃, hfr₃⟩ := free_rep hR₂ hW₁ (hg.holds hw)
  rw [hf]
  refine ⟨s₃, rfl, hR₃, ?_, fun w' hw' _ i hi => ?_⟩
  · refine (hfr₁.trans (hfrc.trans hfr₃)).mono fun x h => ?_
    rcases h with h | h | h | h
    · exact .inl h
    · exact .inl (Grants.fresh hW₁.layout hg hq₁ hnew h.1 (by omega))
    · exact .inl fun hx => h ((inPayload_congr rfl).1 (by
        obtain ⟨p', w', hp', h3, h4⟩ := inPayload_iff.1 hx
        exact inPayload_iff.2 ⟨p', w', hg.holds hp', h3, h4⟩))
    · exact .inr ⟨.inr hq, w, hw, h⟩
  · obtain ⟨-, rfl⟩ := hW.layout.payload_unique hw hw' ⟨le_rfl, by omega⟩ ⟨le_rfl, by omega⟩
    have hx₃ : s₃.mem (q + i) = memcpy s₁.mem q p c (q + i) := hfr₃.keep fun h => by
      rcases h with h | h
      · exact h (inPayload_iff.2 ⟨q, w₀, hq₁, by omega, by omega⟩)
      · exact hpq (hW₁.layout.payload_unique (hg.holds hw) hq₁ h ⟨by omega, by omega⟩).1
    rw [hx₃, memcpy_of_lt hi]
    exact hfr₁.keep fun h => h (inPayload_iff.2 ⟨p, w, hw, by omega, by omega⟩)

/-- `calloc` refines the abstract `calloc` when the wrapped product does not wrap again in
`malloc`; a non-`NULL` result has its first `k * s` bytes (as `size_t`) zeroed. -/
theorem calloc_rep {k z : Nat} (hn : k * z % 2 ^ 64 ≤ 2 ^ 64 - 24) :
    ∃ s', Model.calloc s k z = some ((View.calloc H k z).1, s') ∧
      Rep s' (View.calloc H k z).2 ∧ Frame s.mem s'.mem (fun x => ¬InPayload H.blocks x) ∧
      ((View.calloc H k z).1 ≠ 0 → ∀ i < k * z % 2 ^ 64,
        s'.mem ((View.calloc H k z).1 + i) = 0) := by
  unfold Model.calloc View.calloc
  by_cases hk : k = 0
  · simp only [hk, if_true, ne_eq, not_true_eq_false, false_implies, and_true]
    exact ⟨s, rfl, hR, Frame.refl _ _⟩
  rw [if_neg hk, if_neg hk]
  by_cases hc : k * z % 2 ^ 64 / k ≠ z
  · rw [if_pos hc, if_pos hc]
    exact ⟨s, rfl, hR, Frame.refl _ _, fun h => absurd rfl h⟩
  rw [if_neg hc, if_neg hc]
  set asize := k * z % 2 ^ 64
  obtain ⟨s₁, hm, hR₁, hfr₁⟩ := malloc_rep hR hW hn
  obtain ⟨hW₁, hg⟩ := hW.malloc hR.lo hR.lo_pos hn
  rw [hm]
  by_cases hq : (View.malloc H asize).1 = 0
  · simp only [hq, if_true, ne_eq, not_true_eq_false, false_implies, and_true]
    exact ⟨s₁, rfl, hR₁, hfr₁⟩
  obtain ⟨w₀, hw₀, hq₁, -, hnew⟩ := hg.granted hq
  simp only [hq, if_false]
  set q := (View.malloc H asize).1
  have hfrz : Frame s₁.mem (memset s₁.mem q 0 asize) fun x => q ≤ x ∧ x < q + asize :=
    fun x hx => by
      by_contra h
      exact hx (memset_of_not_mem (by omega))
  refine ⟨_, rfl, hR₁.write_payload hW₁.lists (hfrz.mono fun x h =>
    inPayload_iff.2 ⟨q, w₀, hq₁, h.1, by omega⟩), hfr₁.comp (hfrz.mono fun x h =>
      Grants.fresh hW₁.layout hg hq₁ hnew h.1 (by omega)), fun _ i hi => memset_of_lt hi⟩

end Realloc

/-- A state before `mm_init`: no heap yet, and an empty `memlib` heap at a 16-aligned,
non-`NULL` base. -/
def Fresh (s : State) : Prop :=
  s.heapStart = 0 ∧ s.lib.brk = s.lib.lo ∧ s.lib.lo % 16 = 0 ∧ 0 < s.lib.lo

/-- `mm_init` always returns; it sets `heap_start` exactly when its first `mem_sbrk`
succeeds, and the state then holds an invariant heap with no allocation. -/
theorem mmInit_rep {s : State} (h : Fresh s) :
    ∃ ok s', Model.mmInit s = some (ok, s') ∧
      (s'.heapStart = 0 ↔ (s.lib.sbrk (toIntptr 16)).1 = sbrkFailed) ∧ (s'.heapStart = 0 → ok = false) ∧
      (s'.heapStart ≠ 0 → Rep s' (View.mmInit s.lib) ∧ WF (View.mmInit s.lib) ∧
        (∀ p w, ¬Holds (View.mmInit s.lib).blocks p w) ∧
        (ok = true ↔ (View.extend (Heap.empty (s.lib.sbrk (toIntptr 16)).2 s.lib.lo) chunksize).1 ≠ 0)) := by
  obtain ⟨h0, hbrk, hlo, hlo0⟩ := h
  unfold Model.mmInit View.mmInit
  simp only [memSbrk]
  rw [show (2 * (wsize : Int)) = toIntptr 16 by decide]
  by_cases hok : (s.lib.sbrk (toIntptr 16)).1 = sbrkFailed
  · rw [if_pos hok]
    exact ⟨false, _, rfl, iff_of_true h0 hok, fun _ => rfl, fun h => absurd h0 h⟩
  obtain ⟨hst, hgrow, hle⟩ := MemLib.sbrk_granted (by omega) hok
  rw [if_neg hok, hst]
  have hlo' : (s.lib.sbrk (toIntptr 16)).2.lo = s.lib.lo := MemLib.sbrk_lo _ _
  generalize (s.lib.sbrk (toIntptr 16)).2 = lib at hgrow hlo' ⊢
  rw [hbrk] at hgrow hle ⊢
  have hE := WF.empty hlo' (by omega)
  have key : ∀ s₁ : State, Rep s₁ (Heap.empty lib s.lib.lo) → ∃ ok s',
      (match extendHeap s₁ chunksize with
        | none => none
        | some (b, s) => some (decide (b ≠ 0), s)) = some (ok, s') ∧
      (s'.heapStart = 0 ↔ s.lib.lo = sbrkFailed) ∧ (s'.heapStart = 0 → ok = false) ∧
      (s'.heapStart ≠ 0 → Rep s' (View.extend (Heap.empty lib s.lib.lo) chunksize).2 ∧
        WF (View.extend (Heap.empty lib s.lib.lo) chunksize).2 ∧
        (∀ p w, ¬Holds (View.extend (Heap.empty lib s.lib.lo) chunksize).2.blocks p w) ∧
        (ok = true ↔ (View.extend (Heap.empty lib s.lib.lo) chunksize).1 ≠ 0)) :=
      fun s₁ hR₁ => by
    obtain ⟨s₂, hext, hR₂, -⟩ := extendHeap_rep hR₁ hE.1 (z := chunksize) (by simp [chunksize])
      (by simp [chunksize]) (by simp [chunksize])
    obtain ⟨hW₂, hh₂, -⟩ := hE.1.extend (by simp [Heap.empty, hlo', hlo]) (z := chunksize)
      (by simp [chunksize]) (by simp [chunksize]) (by simp [chunksize])
    have hs₂ : s₂.heapStart ≠ 0 := by rw [hR₂.start]; omega
    refine ⟨_, s₂, by rw [hext], iff_of_false hs₂ (by unfold sbrkFailed; omega), fun h => absurd h hs₂,
      fun _ => ⟨hR₂, hW₂, fun p w h => hE.2 p w ((hh₂ p w).1 h), decide_eq_true_iff⟩⟩
  refine key _ ?_
  have hpk : packAll 0 true true false < 2 ^ 64 := packAll_lt _ _ _ (Nat.zero_mod _) (Nat.two_pow_pos 64)
  refine
    { lib := rfl
      start := by simp [Heap.empty, hlo', wsize]
      lo := by simp [Heap.empty, hlo', hlo]
      lo_pos := by simp [Heap.empty, hlo', hlo0]
      brk := by simp [Heap.empty]; omega
      layout := hE.1.layout
      hdrs := ⟨?_, fun b hb => ?_⟩
      miniHead := rfl
      miniLinks := trivial
      segHead := fun i hi => by simp [Heap.empty, hi]
      segLinks := fun _ _ => trivial }
  · simp only [Heap.empty, hlo', State.setWord_mem]
    rw [readWord_write_disj (by unfold Disj wsize; omega)]
    exact readWord_writeWord_of_lt (packAll_lt _ _ _ (Nat.zero_mod _) (Nat.two_pow_pos 64))
  · simp only [Heap.empty, List.mem_singleton] at hb
    subst hb
    exact ⟨readWord_writeWord_of_lt hpk, fun h => by simp [Blk.hasFooter] at h⟩

end SegAlloc.Refine
