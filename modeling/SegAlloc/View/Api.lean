import SegAlloc.View.Malloc
import SegAlloc.View.Fit

/-!
# The interface keeps the invariant

`malloc`, `free`, `realloc` and `calloc` on the decoded heap keep `WF`, and change
the allocations exactly as the interface promises: `malloc(n)` adds one block, new
and of at least `n + 8` bytes, or none when it returns `NULL`; `free(p)` removes the
block of `p` and nothing else (`Grants`, `WF.malloc`, `WF.free`). Requests are at most
`2 ^ 64 - 24` bytes, so that `round_up(n + 8, 16)` does not wrap.
-/

namespace SegAlloc.View

open SegAlloc.Machine SegAlloc.Model

/-- The adjusted size of a request that does not wrap. -/
theorem asize_eq {n : Nat} (hn : n ≤ 2 ^ 64 - 24) :
    roundUp ((n + wsize) % 2 ^ 64) dsize = (n + 23) / 16 * 16 := by
  rw [Nat.mod_eq_of_lt (by simp only [wsize]; omega), show dsize = 16 from rfl,
    roundUp_sixteen (by simp only [wsize]; omega)]
  rfl

/-- What `malloc(n)` promises of its result `p` and heap `H'` on `H`: with `NULL`
the allocations are unchanged; otherwise `p` was not allocated before, and now is, with
a block of at least `n + 8` bytes, next to the allocations of `H`. -/
def Grants (H : Heap) (n p : Nat) (H' : Heap) : Prop :=
  (p = 0 → Holds H'.blocks = Holds H.blocks) ∧
  (p ≠ 0 → (∀ w, ¬Holds H.blocks p w) ∧ ∃ w₀, n + 8 ≤ w₀ ∧
    ∀ q w, Holds H'.blocks q w ↔ Holds H.blocks q w ∨ (q = p ∧ w = w₀))

/-- Unfolding a grant of a non-`NULL` pointer. -/
theorem Grants.granted {H H' : Heap} {n p : Nat} (h : Grants H n p H') (hp : p ≠ 0) :
    ∃ w₀, n + 8 ≤ w₀ ∧ Holds H'.blocks p w₀ ∧ (∀ q w, Holds H.blocks q w → Holds H'.blocks q w) ∧
      ∀ w, ¬Holds H.blocks p w := by
  obtain ⟨hfresh, w₀, hw₀, hiff⟩ := h.2 hp
  exact ⟨w₀, hw₀, (hiff p w₀).2 (.inr ⟨rfl, rfl⟩), fun q w h => (hiff q w).2 (.inl h), hfresh⟩

/-- Every allocation of the heap before a grant is kept. -/
theorem Grants.holds {H H' : Heap} {n p : Nat} (h : Grants H n p H') {q w : Nat}
    (hq : Holds H.blocks q w) : Holds H'.blocks q w := by
  by_cases hp : p = 0
  · rw [h.1 hp]; exact hq
  · obtain ⟨-, -, -, hsub, -⟩ := h.granted hp
    exact hsub q w hq

/-- Payloads are disjoint: a byte lies in the payload of one allocation at most. -/
theorem Layout.payload_unique {H : Heap} (hlay : Layout H) {p q w w' x : Nat}
    (hp : Holds H.blocks p w) (hq : Holds H.blocks q w') (hxp : p ≤ x ∧ x + 8 < p + w)
    (hxq : q ≤ x ∧ x + 8 < q + w') : p = q ∧ w = w' := by
  obtain ⟨b, hb, -, hb0, rfl, rfl⟩ := hp
  obtain ⟨c, hc, -, hc0, rfl, rfl⟩ := hq
  by_cases he : b.addr = c.addr
  · rw [hlay.eq_of_addr hb hc he]
    exact ⟨rfl, rfl⟩
  · have := hlay.sep hb hc he
    have : b.size ≤ b.span := le_max_left _ _
    have : c.size ≤ c.span := le_max_left _ _
    omega

/-- The payload of a free block is allocated nowhere. -/
theorem not_holds_free {H : Heap} (hlay : Layout H) {X : Blk} (hX : X ∈ H.blocks)
    (hXf : X.alloc = false) (w : Nat) : ¬Holds H.blocks (X.addr + 8) w := by
  rintro ⟨b, hb, hba, -, he, -⟩
  rw [hlay.eq_of_addr hb hX (by omega), hXf] at hba
  cases hba

/-- Placing a request in a free block of at least `asize` bytes grants it. -/
theorem WF.place_grants {H : Heap} (hW : WF H) {X : Blk} (hX : X ∈ H.blocks)
    (hXf : X.alloc = false) {n asize : Nat} (h16 : 16 ≤ asize) (hmod : asize % 16 = 0)
    (hn : n + 8 ≤ asize) (hle : asize ≤ X.size) :
    WF (View.place H X.addr asize) ∧
      Grants H n (headerToPayload X.addr) (View.place H X.addr asize) := by
  obtain ⟨pre, post, hbl⟩ := List.append_of_mem hX
  obtain ⟨hW', hh⟩ := hW.place hbl hXf h16 hmod
  refine ⟨hW', fun h => absurd h (by simp [headerToPayload, wsize]), fun _ =>
    ⟨not_holds_free hW.layout hX hXf, _, ?_, fun q w => hh q w⟩⟩
  split_ifs <;> omega

/-- Grants survive a first step that keeps the allocations. -/
theorem Grants.of_holds {H H₁ H' : Heap} {n p : Nat} (h₁ : Holds H₁.blocks = Holds H.blocks)
    (h : Grants H₁ n p H') : Grants H n p H' := by
  rw [Grants, ← h₁]
  exact h

/-- `malloc` of a request that a free block fits places it there. -/
theorem malloc_of_fit {H : Heap} {n : Nat} (h0 : n ≠ 0)
    (hb : findFit H (roundUp ((n + wsize) % 2 ^ 64) dsize) ≠ 0) :
    View.malloc H n = (headerToPayload (findFit H (roundUp ((n + wsize) % 2 ^ 64) dsize)),
      place H (findFit H (roundUp ((n + wsize) % 2 ^ 64) dsize))
        (roundUp ((n + wsize) % 2 ^ 64) dsize)) := by
  simp only [View.malloc, if_neg h0, if_neg hb]

/-- The block a request is placed in keeps exactly `asize` bytes: `split_block` leaves a
block whole only when the rest is below `min_block_size`, and both sizes are multiples of 16. -/
theorem WF.place_exact {H : Heap} (hW : WF H) {X : Blk} (hX : X ∈ H.blocks)
    (hXf : X.alloc = false) {asize : Nat} (h16 : 16 ≤ asize) (hmod : asize % 16 = 0)
    (hle : asize ≤ X.size) : Holds (View.place H X.addr asize).blocks (X.addr + 8) asize := by
  obtain ⟨pre, post, hbl⟩ := List.append_of_mem hX
  have := hW.layout.free_size hX hXf
  refine ((hW.place hbl hXf h16 hmod).2 _ _).2 (.inr ⟨rfl, ?_⟩)
  split_ifs with hs
  · rfl
  · simp only [minBlockSize, dsize, wsize] at hs
    omega

section Malloc

variable {H : Heap} (hW : WF H) (hlo : H.lib.lo % 16 = 0) (hlo0 : 0 < H.lib.lo) {n : Nat}
  (hn : n ≤ 2 ^ 64 - 24)
include hW hlo hlo0 hn

/-- `malloc` keeps the invariant and grants the request. -/
theorem WF.malloc : WF (View.malloc H n).2 ∧ Grants H n (View.malloc H n).1 (View.malloc H n).2 := by
  unfold View.malloc
  by_cases h0 : n = 0
  · simp only [h0, if_true]
    exact ⟨hW, fun _ => rfl, fun h => absurd rfl h⟩
  rw [if_neg h0, asize_eq hn]
  set asize := (n + 23) / 16 * 16
  have h16 : 16 ≤ asize := by omega
  have hmod : asize % 16 = 0 := by omega
  have hna : n + 8 ≤ asize := by omega
  by_cases hb : findFit H asize = 0
  · -- no block fits: the heap is extended
    obtain ⟨hW₁, hh₁, -, -, hfound⟩ := hW.extend hlo (z := max asize chunksize) (by omega)
      (by simp only [chunksize]; omega) (by simp only [chunksize]; omega)
    have hh : Holds (View.extend H (max asize chunksize)).2.blocks = Holds H.blocks :=
      funext fun p => funext fun w => propext (hh₁ p w)
    simp only [hb, if_true]
    by_cases he : (View.extend H (max asize chunksize)).1 = 0
    · simp only [he, if_true]
      exact ⟨hW₁, fun _ => hh, fun h => absurd rfl h⟩
    · obtain ⟨M, hM, hMa, hMf, -, hMz, -⟩ := hfound he
      simp only [he, if_false]
      rw [← hMa]
      exact (hW₁.place_grants hM hMf h16 hmod hna (by omega)).imp_right (Grants.of_holds hh)
  · -- a free block fits
    obtain ⟨X, hX, hXa, hXf, hXs, -⟩ := findFit_fits hW hlo0 hb
    simp only [hb, if_false]
    rw [← hXa]
    exact hW.place_grants hX hXf h16 hmod hna hXs

/-- `malloc` hands out exactly the adjusted size `round_up(n + 8, 16)`. -/
theorem WF.malloc_exact (hp : (View.malloc H n).1 ≠ 0) :
    Holds (View.malloc H n).2.blocks (View.malloc H n).1 ((n + 23) / 16 * 16) := by
  unfold View.malloc at hp ⊢
  have h0 : n ≠ 0 := by rintro rfl; exact hp rfl
  rw [if_neg h0, asize_eq hn] at hp ⊢
  set asize := (n + 23) / 16 * 16
  have h16 : 16 ≤ asize := by omega
  have hmod : asize % 16 = 0 := by omega
  by_cases hb : findFit H asize = 0
  · -- the block `extend_heap` returned
    simp only [hb, if_true] at hp ⊢
    have he : (View.extend H (max asize chunksize)).1 ≠ 0 := fun he => by simp [he] at hp
    obtain ⟨hW₁, -, -, -, hfound⟩ := hW.extend hlo (z := max asize chunksize) (by omega)
      (by simp only [chunksize]; omega) (by simp only [chunksize]; omega)
    obtain ⟨M, hM, hMa, hMf, -, hMz, -⟩ := hfound he
    simp only [he, if_false]
    rw [← hMa]
    exact hW₁.place_exact hM hMf h16 hmod (le_trans (le_max_left _ _) hMz)
  · -- the block `find_fit` found
    obtain ⟨X, hX, hXa, hXf, hXs, -⟩ := findFit_fits hW hlo0 hb
    simp only [hb, if_false]
    rw [← hXa]
    exact hW.place_exact hX hXf h16 hmod hXs

end Malloc

/-- What `malloc` asks of `mem_sbrk`. When `find_fit` finds a block, `malloc` returns
its payload and leaves `memlib` alone; otherwise it calls `mem_sbrk` once, for
`max(asize, chunksize)` bytes, and returns `NULL` exactly when that call fails. -/
theorem WF.malloc_sbrk {H : Heap} (hW : WF H) (hlo : H.lib.lo % 16 = 0) {n : Nat}
    (hn : n ≤ 2 ^ 64 - 24) (h0 : n ≠ 0) :
    (findFit H ((n + 23) / 16 * 16) ≠ 0 →
      (View.malloc H n).1 = headerToPayload (findFit H ((n + 23) / 16 * 16)) ∧
        (View.malloc H n).2.lib = H.lib) ∧
    (findFit H ((n + 23) / 16 * 16) = 0 →
      (View.malloc H n).2.lib = (H.lib.sbrk (toIntptr (max ((n + 23) / 16 * 16) chunksize))).2 ∧
      ((View.malloc H n).1 = 0 ↔
        (H.lib.sbrk (toIntptr (max ((n + 23) / 16 * 16) chunksize))).1 = sbrkFailed)) := by
  unfold View.malloc
  rw [if_neg h0, asize_eq hn]
  set asize := (n + 23) / 16 * 16
  set z := max asize chunksize
  refine ⟨fun hb => ?_, fun hb => ?_⟩
  · simp only [hb, if_false, place_lib, and_true]
  have hz16 : 16 ≤ z := le_max_of_le_left (by omega)
  have hzmod : z % 16 = 0 := by simp only [z, chunksize]; omega
  have hzlt : z < 2 ^ 64 := by simp only [z, chunksize]; omega
  obtain ⟨-, -, hlib, -, -⟩ := hW.extend hlo hz16 hzmod hzlt
  simp only [hb, if_true]
  by_cases he : (View.extend H z).1 = 0
  · simp only [he, if_true, true_iff]
    exact ⟨hlib, by_contra fun hok => extend_ne_zero hW hz16 hzmod hzlt hok he⟩
  · simp only [he, if_false, place_lib]
    refine ⟨hlib, iff_of_false (by simp [headerToPayload, wsize]) fun hf => he ?_⟩
    rw [extend_of_fail (by rw [show roundUp z dsize = z from roundUp_of_mod hzmod hzlt]; exact hf)]

/-- The heap `mm_init` lays out keeps the invariant and holds no allocation. -/
theorem WF.empty {lib : MemLib} {start : Nat} (hlo : lib.lo = start) (hbrk : lib.brk = start + 16) :
    WF (Heap.empty lib start) ∧ ∀ p w, ¬Holds (Heap.empty lib start).blocks p w := by
  refine ⟨{ layout := ⟨[], _, rfl, ?_, rfl, rfl, ?_⟩
            lists := ⟨List.nodup_nil, fun _ => List.nodup_nil, by simp [Heap.empty],
              by simp [Heap.empty]⟩
            first := fun b hb => by simp [Heap.empty] at hb; simp [← hb]
            flags := List.chain'_singleton _
            apart := List.chain'_singleton _
            listed := fun b hb hf => by simp [Heap.empty] at hb; simp [hb] at hf }, fun p w => ?_⟩
  · simp [Heap.empty, hlo, wsize]
  · simp [Heap.empty, hbrk, wsize]
  · simp [Heap.empty, holds_cons]

/-- `mm_init()` on the decoded heap of a fresh `memlib` at `lib.lo`: the prologue and
epilogue in the first 16 bytes `mem_sbrk` grants, then `extend_heap(chunksize)`. -/
def mmInit (lib : MemLib) : Heap :=
  (View.extend (Heap.empty (lib.sbrk (toIntptr 16)).2 lib.lo) chunksize).2

/-- The heap `mm_init` lays out when `memlib` grants its two requests: one free block
of `chunksize` bytes after the prologue, listed in bucket `find_class(chunksize) = 9`, and
the epilogue. -/
theorem mmInit_chunk {lib : MemLib} (hbrk : lib.brk = lib.lo)
    (h1 : lib.grant lib.calls = true) (h2 : lib.grant (lib.calls + 1) = true)
    (hroom : lib.lo + 4112 ≤ 2 ^ 64) :
    (View.mmInit lib).blocks = [⟨lib.lo + 8, 4096, false, true, false⟩,
      ⟨lib.lo + 4104, 0, true, false, false⟩] ∧
    (View.mmInit lib).mini = [] ∧ ∀ i, (View.mmInit lib).seg i = if i = 9 then [lib.lo + 8] else [] := by
  have g1 : (lib.sbrk (toIntptr 16)).2 = { lib with brk := lib.lo + 16, calls := lib.calls + 1 } := by
    rw [show toIntptr 16 = 16 by decide, MemLib.sbrk, if_pos (by simp [h1, hbrk]; omega)]
    simp [hbrk]
  have g2 : ({ lib with brk := lib.lo + 16, calls := lib.calls + 1 } : MemLib).sbrk 4096 =
      (lib.lo + 16, { lib with brk := lib.lo + 4112, calls := lib.calls + 2 }) := by
    rw [MemLib.sbrk, if_pos (by simp [h2]; omega)]
    simp
  have hne : lib.lo + 16 ≠ sbrkFailed := by unfold sbrkFailed; omega
  simp only [View.mmInit, View.extend, show roundUp chunksize dsize = 4096 by decide, g1,
    show toIntptr 4096 = 4096 by decide, g2, Heap.empty, hne, if_false, List.getLast?_singleton]
  simp [coalesce, locate, wsize, minBlockSize, dsize, Heap.push, Heap.withBlocks]
  intro i
  rw [show findClass 4096 = 9 by decide, Function.update_apply]

/-- No block of `l` holds the payload of a block at an address none of them has. -/
theorem holds_ne {l : List Blk} {a q w : Nat} (h : ∀ b ∈ l, b.addr ≠ a) (hq : Holds l q w) :
    q ≠ a + 8 := by
  obtain ⟨b, hb, -, -, rfl, -⟩ := hq
  have := h b hb
  omega

/-- `free` of the payload of the block that `locate` finds. -/
theorem free_of_locate {H : Heap} {pre post : List Blk} {B : Blk}
    (hloc : locate B.addr H.blocks = some (pre, B, post)) :
    View.free H (B.addr + 8) =
      (coalesce (H.withBlocks (pre ++ { B with alloc := false } :: post)) B.addr).2 := by
  simp only [View.free, show B.addr + 8 ≠ 0 by omega, if_false, payloadToHeader, wsize,
    Nat.add_sub_cancel, hloc]

/-- `free` keeps the invariant and ends one allocation. Freeing the payload `p` of an
allocated block removes exactly `p` from the allocations. -/
theorem WF.free {H : Heap} (hW : WF H) {p : Nat} (hp : ∃ w, Holds H.blocks p w) :
    WF (View.free H p) ∧ ∀ q w, Holds (View.free H p).blocks q w ↔ Holds H.blocks q w ∧ q ≠ p := by
  obtain ⟨w₀, B, hB, hBa, hB0, rfl, -⟩ := hp
  obtain ⟨pre, post, hbl⟩ := List.append_of_mem hB
  have h16 : 16 ≤ B.size := by
    rcases (hW.layout.mem hB).2.2 with ⟨h, -⟩ | ⟨h, -⟩
    · exact absurd h hB0
    · exact h
  have hne : ∀ b ∈ pre ++ post, b.addr ≠ B.addr := fun b hb he => by
    have hnd := hW.layout.addr_nodup
    rw [hbl, List.map_append, List.map_cons, List.nodup_middle, List.nodup_cons,
      ← List.map_append] at hnd
    exact hnd.1 (he ▸ List.mem_map_of_mem _ hb)
  have hWb := hW.release hbl hBa h16
  have hm := coalesce_merges hWb
  have hfree : View.free H (B.addr + 8) = (coalesce (H.withBlocks
      (pre ++ { B with alloc := false } :: post)) { B with alloc := false }.addr).2 :=
    free_of_locate (hW.layout.locate hbl)
  rw [hfree]
  refine ⟨hm.wf hWb, fun q w => ?_⟩
  rw [hm.holds, Heap.withBlocks_blocks, hbl, holds_append, holds_append,
    holds_cons_skip (.inl rfl), holds_cons_alloc hBa hB0]
  have h1 := fun h => holds_ne (fun b hb => hne b (List.mem_append_left _ hb)) (q := q) (w := w) h
  have h2 := fun h => holds_ne (fun b hb => hne b (List.mem_append_right _ hb)) (q := q) (w := w) h
  constructor
  · rintro (h | h)
    · exact ⟨.inl h, h1 h⟩
    · exact ⟨.inr (.inr h), h2 h⟩
  · rintro ⟨h | ⟨rfl, -⟩ | h, hq⟩
    · exact .inl h
    · exact absurd rfl hq
    · exact .inr h

/-- The block `free` releases lies inside a free block afterwards: itself, merged with
its free neighbours. -/
theorem WF.free_merged {H : Heap} (hW : WF H) {p w : Nat} (hp : Holds H.blocks p w) :
    ∃ M ∈ (View.free H p).blocks, M.alloc = false ∧ M.addr ≤ p - 8 ∧ p - 8 + w ≤ M.addr + M.size := by
  obtain ⟨B, hB, hBa, hB0, rfl, rfl⟩ := hp
  obtain ⟨pre, post, hbl⟩ := List.append_of_mem hB
  have h16 : 16 ≤ B.size := ((hW.layout.mem hB).2.2.resolve_left fun h => hB0 h.1).1
  have hWb := hW.release hbl hBa h16
  rw [free_of_locate (hW.layout.locate hbl)]
  obtain ⟨M, hM, -, hMf, -, h1, h2⟩ := (coalesce_merges hWb).result hWb.layout
  exact ⟨M, hM, hMf, by simpa using h1, by simpa using h2⟩

/-- A free block of a heap that keeps the invariant lies between allocated blocks, and
the flags of its right neighbour describe it. -/
theorem WF.free_nbrs {H : Heap} (hW : WF H) {pre post : List Blk} {X N : Blk}
    (hbl : H.blocks = pre ++ X :: N :: post) (hXf : X.alloc = false) :
    X.prevAlloc = true ∧ N.alloc = true ∧ N.prevAlloc = false ∧
      N.prevMini = (X.size == minBlockSize) := by
  have hfl := hW.flags
  have hap := hW.apart
  rw [hbl] at hfl hap
  obtain ⟨-, hXN, hPX⟩ := chain'_unsplice hfl
  obtain ⟨hNpa, hNpm⟩ := (List.chain'_cons.1 hXN).1
  refine ⟨?_, hW.next_alloc hbl hXf, hNpa.trans hXf, hNpm⟩
  cases hP : pre.getLast? with
  | none =>
    rw [List.getLast?_eq_none_iff] at hP
    subst hP
    exact (hW.first X (by simp [hbl])).1
  | some P =>
    rw [(hPX P hP).1]
    exact ((chain'_unsplice hap).2.2 P hP).resolve_right (by simp [hXf])

/-- `free` undoes `place`. Placing a request in the free block `X` and freeing its
payload again gives back the heap with `X` moved to the front of its list: split and
coalesce undo each other. -/
theorem WF.free_place {H : Heap} (hW : WF H) {X : Blk} (hX : X ∈ H.blocks)
    (hXf : X.alloc = false) {asize : Nat} (h16 : 16 ≤ asize) :
    View.free (View.place H X.addr asize) (X.addr + 8) =
      (H.erase X.addr X.size).push X.addr X.size := by
  obtain ⟨pre, post, hbl⟩ := List.append_of_mem hX
  have hX16 := hW.layout.free_size hX hXf
  obtain ⟨N, post, rfl⟩ := List.exists_cons_of_ne_nil (hW.layout.succ_exists hbl hX16.1)
  obtain ⟨hpa, hNa, hNpa, hNpm⟩ := hW.free_nbrs hbl hXf
  have hnd := hW.layout.addr_nodup
  rw [hbl, List.map_append, List.map_cons, List.nodup_append] at hnd
  have hpre : ∀ b ∈ pre, b.addr ≠ X.addr := fun b hb he =>
    hnd.2.2 (List.mem_map_of_mem _ hb) (by simp [he])
  have hE : ((H.erase X.addr X.size).push X.addr X.size).withBlocks H.blocks =
      (H.erase X.addr X.size).push X.addr X.size := by
    conv_rhs => rw [← Heap.withBlocks_self ((H.erase X.addr X.size).push X.addr X.size)]
    simp
  set X' : Blk := { X with alloc := true }
  set N' : Blk := { N with prevAlloc := true }
  set H₂ := (H.erase X.addr X.size).withBlocks (pre ++ X' :: N' :: post)
  have hloc₂ : locate X'.addr H₂.blocks = some (pre, X', N' :: post) := locate_eq hpre rfl
  have hplace : View.place H X.addr asize =
      if (View.split H₂ X.addr asize).1 ≠ 0 then (coalesce (View.split H₂ X.addr asize).2
        (View.split H₂ X.addr asize).1).2 else (View.split H₂ X.addr asize).2 :=
    place_eq hW.layout hbl asize
  by_cases hs : asize + minBlockSize ≤ X.size
  · rw [hplace, split_of_le hloc₂ hs, if_pos (by dsimp only; omega)]
    set A : Blk := { X' with size := asize }
    set R : Blk := ⟨X'.addr + asize, X'.size - asize, false, true, asize == minBlockSize⟩
    have hloc₃ : locate R.addr (H₂.withBlocks (pre ++ A :: R :: N' :: post)).blocks =
        some (pre ++ [A], R, N' :: post) := by
      rw [Heap.withBlocks_blocks, ← List.singleton_append, ← List.append_assoc]
      refine locate_eq (fun b hb => ?_) rfl
      rcases List.mem_append.1 hb with hb | hb
      · have hbH : b ∈ H.blocks := by simp [hbl, hb]
        have := hW.layout.sep hbH hX (hpre b hb)
        have : X.span = X.size := Blk.span_eq (by omega)
        have : b.size ≤ b.span := le_max_left _ _
        simp only [R, X', minBlockSize, dsize, wsize] at hs ⊢
        omega
      · rw [List.mem_singleton.1 hb]
        simp only [A, R, X']
        omega
    rw [coalesce_one hloc₃ rfl hNa]
    dsimp only
    rw [Heap.withBlocks_withBlocks, List.append_assoc, List.singleton_append]
    set H₄ := (H₂.withBlocks (pre ++ A :: R :: N'.afterFree R :: post)).push R.addr R.size
    have hloc₄ : locate A.addr H₄.blocks = some (pre, A, R :: N'.afterFree R :: post) := by
      rw [Heap.push_blocks, Heap.withBlocks_blocks]
      exact locate_eq hpre rfl
    rw [show X.addr = A.addr from rfl, free_of_locate hloc₄]
    set A' : Blk := { A with alloc := false }
    have hloc₅ : locate A'.addr (H₄.withBlocks (pre ++ A' :: R :: N'.afterFree R :: post)).blocks =
        some (pre, A', R :: N'.afterFree R :: post) := locate_eq hpre rfl
    have hR16 : 16 ≤ R.size := by simp only [R, X', minBlockSize, dsize, wsize] at hs ⊢; omega
    rw [show A.addr = A'.addr from rfl, coalesce_three hloc₅ rfl hpa rfl h16 hR16]
    have hM : A'.merge [R] = X := by
      ext <;> simp [Blk.merge, A', A, X', R, hXf, hpa]
      omega
    have hN : (N'.afterFree R).afterFree X = N := by
      ext <;> simp [Blk.afterFree, N', hNpa, hNpm]
    rw [hM, hN]
    simp only [H₄, H₂, Heap.erase_withBlocks, Heap.push_withBlocks, Heap.withBlocks_withBlocks,
      Heap.erase_push, ← hbl]
    exact hE
  · rw [hplace, split_of_lt hloc₂ hs, if_neg (by simp), show X.addr = X'.addr from rfl,
      free_of_locate hloc₂]
    set X'' : Blk := { X' with alloc := false }
    have hloc₅ : locate X''.addr (H₂.withBlocks (pre ++ X'' :: N' :: post)).blocks =
        some (pre, X'', N' :: post) := locate_eq hpre rfl
    rw [show X'.addr = X''.addr from rfl, coalesce_one hloc₅ hpa hNa]
    have hX'' : X'' = X := by ext <;> simp [X'', X', hXf]
    have hN : N'.afterFree X = N := by ext <;> simp [Blk.afterFree, N', hNpa, hNpm]
    rw [hX'', hN]
    simp only [H₂, Heap.push_withBlocks, Heap.withBlocks_withBlocks, ← hbl]
    exact hE

end SegAlloc.View
