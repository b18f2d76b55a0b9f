import SegAlloc.Trace.Shape

/-!
# What `malloc`, `realloc` and `calloc` return

For a request that does not wrap (`n ≤ 2 ^ 64 - 24`), `malloc` returns `NULL` or the
payload of an allocated block on no list with room for `n` bytes
(`Reach.malloc_fits`). Past that bound `round_up(n + 8, 16)` wraps: for `n = 2 ^ 64 - 8`
it is 0, and `malloc` returns the payload of a block it leaves free and listed
(`malloc_returns_free_block`). `find_fit` returns `NULL` only when
no free block fits, and otherwise the block the bucket order selects; `extend_heap`
returns a free block that fits and ends at the new epilogue (`Reach.findFit_spec`).
`free` undoes a `malloc` that found a free block (`Reach.malloc_free_restores`), and
`realloc` moves the allocation and its bytes (`Reach.realloc_moves`). `calloc` returns `NULL`
when its product exceeds a word (`calloc_of_wrap`) and zeroes what it returns
(`Reach.calloc_zeroed`), but its product check lets `(1, 2 ^ 64 - 1)` through to the
wrapping `malloc`, and `memset` then runs past the block (`calloc_wraps`).
-/

namespace SegAlloc.Trace

open SegAlloc.Machine SegAlloc.Model SegAlloc.View SegAlloc.Refine

/-- The payload of an allocated block is held, with the block's size. -/
theorem holds_of_walk {s : State} {H : Heap} (hR : Rep s H) {q w : Nat} (hq : Holds H.blocks q w) :
    getAlloc s (payloadToHeader q) = true ∧ getSize s (payloadToHeader q) = w := by
  obtain ⟨Y, hY, hYa, -, rfl, rfl⟩ := hq
  rw [show payloadToHeader (Y.addr + 8) = Y.addr from payloadToHeader_headerToPayload Y.addr,
    getAlloc_eq hR hY, getSize_eq hR hY]
  exact ⟨hYa, rfl⟩

/-- `malloc` fits the request. In every reachable state, for every request that does
not wrap, `malloc` returns, and a non-`NULL` result is the payload of an allocated block
on no free list with at least `n + 8` bytes. -/
theorem Reach.malloc_fits {s : State} {live : List Nat} (h : Reach s live) {n : Nat}
    (hn : n ≤ 2 ^ 64 - 24) : ∃ p s', SegAlloc.Model.malloc s n = some (p, s') ∧
      (p ≠ 0 → getAlloc s' (payloadToHeader p) = true ∧ n + 8 ≤ getSize s' (payloadToHeader p) ∧
        OnNoList s' (payloadToHeader p)) := by
  obtain ⟨H, hR, hW, -⟩ := h.inv
  obtain ⟨s', hrun, hR', -⟩ := malloc_rep hR hW hn
  obtain ⟨hW', hg⟩ := hW.malloc hR.lo hR.lo_pos hn
  refine ⟨_, s', hrun, fun hp => ?_⟩
  obtain ⟨w₀, hw₀, hq, -, -⟩ := hg.granted hp
  obtain ⟨ha, hs⟩ := holds_of_walk hR' hq
  obtain ⟨Y, hY, hYa, -, he, -⟩ := hq
  refine ⟨ha, hs ▸ hw₀, ?_⟩
  rw [← he, show payloadToHeader (Y.addr + 8) = Y.addr from payloadToHeader_headerToPayload Y.addr]
  exact onNoList_of_rep hR' hW'.lists (hW'.lists.unlisted_of_alloc hW'.layout hY hYa)

/-- `malloc(100)` on the first reachable state. -/
theorem malloc_fits_replayed :
    let s := (replayed []).1
    ∃ p s', SegAlloc.Model.malloc s 100 = some (p, s') ∧
      (p ≠ 0 → getAlloc s' (payloadToHeader p) = true ∧ 100 + 8 ≤ getSize s' (payloadToHeader p) ∧
        OnNoList s' (payloadToHeader p)) :=
  Reach.malloc_fits (reach_replayed [] (by decide)).1 (n := 100) (by decide)

/-- `malloc(2 ^ 64 - 8)` wraps `asize` to 0, so `split_block` frees and relists the whole
block: the payload returned is a free block's, and `malloc(24)` returns it again. -/
theorem malloc_returns_free_block : ∃ s live, Reach s live ∧ ∃ p s',
    SegAlloc.Model.malloc s (2 ^ 64 - 8) = some (p, s') ∧ p ≠ 0 ∧
      getAlloc s' (payloadToHeader p) = false ∧ s'.segList 9 = payloadToHeader p ∧
      ∃ s'', SegAlloc.Model.malloc s' 24 = some (p, s'') :=
  ⟨_, _, (reach_replayed [] (by decide)).1, 4112, _, eq_some_of_fst (0, fresh 4096) (by decide),
    by decide, by decide, by decide, _, eq_some_of_fst (0, fresh 4096) (by decide)⟩

/-- `find_fit` returns `NULL` exactly when no free block fits, and otherwise a fitting block
the bucket order selects; `extend_heap` then returns a fitting block at the heap's end. -/
theorem Reach.findFit_spec {s : State} {live : List Nat} (h : Reach s live) {asize : Nat}
    (h16 : 16 ≤ asize) (hmod : asize % 16 = 0) (hlt : asize < 2 ^ 64) :
    ∃ bs b, heapWalk s (loopFuel s) s.heapStart = some bs ∧ Model.findFit s asize = some b ∧
      (b = 0 ↔ ∀ x ∈ bs, getAlloc s x = false → getSize s x < asize) ∧
      (b ≠ 0 → getAlloc s b = false ∧ asize ≤ getSize s b ∧ OnItsList s b ∧
        (asize = minBlockSize ∧ s.miniList ≠ 0 → b = s.miniList) ∧
        (¬(asize = minBlockSize ∧ s.miniList ≠ 0) → ∃ i l, findClass asize ≤ i ∧ i < LENGTH ∧
          segWalk s i = some l ∧ b ∈ l ∧ ∀ j, findClass asize ≤ j → j < i →
            ∀ l' ∈ segWalk s j, ∀ x ∈ l', getAlloc s x = false → getSize s x < asize)) ∧
      (b = 0 → ∃ e s', extendHeap s (max asize chunksize) = some (e, s') ∧
        (e ≠ 0 → getAlloc s' e = false ∧ asize ≤ getSize s' e ∧ OnItsList s' e ∧
          e + getSize s' e = memHeapHi s' - 7)) ∧
      ((∃ x ∈ bs, getAlloc s x = false ∧ asize ≤ getSize s x) → ∀ n, n ≤ 2 ^ 64 - 24 →
        roundUp ((n + wsize) % 2 ^ 64) dsize = asize →
          ∃ p s', SegAlloc.Model.malloc s n = some (p, s') ∧ s'.lib = s.lib) := by
  obtain ⟨H, hR, hW, -⟩ := h.inv
  have hL := hW.lists
  have hmini : H.mini.headD 0 ≠ 0 ↔ H.mini ≠ [] := by
    rw [ne_eq, headD_eq_zero fun x hx => (hR.listed_bounds hL (.inl hx)).1]
  -- no free block fits, read on the walk
  have hnone : (∀ x ∈ H.blocks.map (·.addr), getAlloc s x = false → getSize s x < asize) ↔
      ∀ X ∈ H.blocks, X.alloc = false → X.size < asize := by
    simp only [List.mem_map, forall_exists_index, and_imp, forall_apply_eq_imp_iff₂]
    exact forall₂_congr fun X hX => by rw [getAlloc_eq hR hX, getSize_eq hR hX]
  refine ⟨_, _, heapWalk_eq hR, findFit_eq hR hL asize, ?_, fun hb => ?_, fun hb => ?_,
    fun ⟨x, hx, hxf, hxs⟩ n hn ha => ?_⟩
  · rw [hnone]
    exact findFit_eq_zero hW hR.lo_pos h16
  · -- what `find_fit` returns
    obtain ⟨X, hX, hXa, hXf, hXs, hXl, hhead, hbucket⟩ := findFit_fits hW hR.lo_pos hb
    rw [← hXa, getAlloc_eq hR hX, getSize_eq hR hX, hR.miniHead]
    refine ⟨hXf, hXs, onItsList_of_rep hR hL hX hXl, fun hm => hhead ⟨hm.1, hmini.1 hm.2⟩,
      fun hm => ?_⟩
    obtain ⟨i, h1, h2, h3, h4⟩ := hbucket fun h' => hm ⟨h'.1, hmini.2 h'.2⟩
    refine ⟨i, _, h1, h2, segWalk_eq hR hL h2, h3, fun j hj hji l hl x hx hxf => ?_⟩
    rw [segWalk_eq hR hL (by omega), Option.mem_some_iff] at hl
    subst hl
    obtain ⟨-, hxa, hxs⟩ := hR.seg_agrees hL hx
    rw [hxa] at hxf
    rw [hxs]
    exact Nat.lt_of_not_le fun hle => h4 j hj hji x hx ⟨hxf, hle⟩
  · -- `extend_heap` when no block fits
    have hz16 : 16 ≤ max asize chunksize := le_max_of_le_left h16
    have hzmod : max asize chunksize % 16 = 0 := by
      rcases max_choice asize chunksize with h' | h' <;> rw [h'] <;> simp [hmod, chunksize]
    have hzlt : max asize chunksize < 2 ^ 64 := max_lt hlt (by simp [chunksize])
    obtain ⟨s', hext, hR', -⟩ := extendHeap_rep hR hW hz16 hzmod hzlt
    obtain ⟨hW', -, -, -, hfound⟩ := hW.extend hR.lo hz16 hzmod hzlt
    refine ⟨_, s', hext, fun he => ?_⟩
    obtain ⟨M, hM, hMa, hMf, hMl, hMz, hMe⟩ := hfound he
    rw [← hMa, getAlloc_eq hR' hM, getSize_eq hR' hM, memHeapHi, hR'.lib]
    exact ⟨hMf, le_trans (le_max_left _ _) hMz, onItsList_of_rep hR' hW'.lists hM hMl, by omega⟩
  · -- a fitting block spares `mem_sbrk`
    obtain ⟨s', hrun, hR', -⟩ := malloc_rep hR hW hn
    refine ⟨_, s', hrun, ?_⟩
    rw [hR'.lib, hR.lib]
    by_cases h0 : n = 0
    · simp only [View.malloc, h0, if_true]
    obtain ⟨X, hX, rfl⟩ := List.mem_map.1 hx
    rw [getAlloc_eq hR hX] at hxf
    rw [getSize_eq hR hX] at hxs
    have hb : View.findFit H asize ≠ 0 := fun hb =>
      absurd ((findFit_eq_zero hW hR.lo_pos h16).1 hb X hX hxf) (not_lt.2 hxs)
    rw [← ha] at hb
    rw [malloc_of_fit h0 hb, place_lib]

/-- A 32-byte search after a block of 32 bytes was freed. -/
theorem findFit_spec_replayed :
    let s := (replayed [.malloc 24, .malloc 24, .free 4112]).1
    ∃ bs b, heapWalk s (loopFuel s) s.heapStart = some bs ∧ Model.findFit s 32 = some b ∧
      (b = 0 ↔ ∀ x ∈ bs, getAlloc s x = false → getSize s x < 32) ∧
      (b ≠ 0 → getAlloc s b = false ∧ 32 ≤ getSize s b ∧ OnItsList s b ∧
        (32 = minBlockSize ∧ s.miniList ≠ 0 → b = s.miniList) ∧
        (¬(32 = minBlockSize ∧ s.miniList ≠ 0) → ∃ i l, findClass 32 ≤ i ∧ i < LENGTH ∧
          segWalk s i = some l ∧ b ∈ l ∧ ∀ j, findClass 32 ≤ j → j < i →
            ∀ l' ∈ segWalk s j, ∀ x ∈ l', getAlloc s x = false → getSize s x < 32)) ∧
      (b = 0 → ∃ e s', extendHeap s (max 32 chunksize) = some (e, s') ∧
        (e ≠ 0 → getAlloc s' e = false ∧ 32 ≤ getSize s' e ∧ OnItsList s' e ∧
          e + getSize s' e = memHeapHi s' - 7)) ∧
      ((∃ x ∈ bs, getAlloc s x = false ∧ 32 ≤ getSize s x) → ∀ n, n ≤ 2 ^ 64 - 24 →
        roundUp ((n + wsize) % 2 ^ 64) dsize = 32 →
          ∃ p s', SegAlloc.Model.malloc s n = some (p, s') ∧ s'.lib = s.lib) :=
  Reach.findFit_spec (reach_replayed [.malloc 24, .malloc 24, .free 4112] (by decide)).1
    (by decide) (by decide) (by decide)

/-- `free` undoes a `malloc` that found a free block: the same walk, headers, footers and
lists, but for the chosen block now at the front of its list. -/
theorem Reach.malloc_free_restores {s : State} {live : List Nat} (h : Reach s live) {n : Nat}
    (hn1 : 1 ≤ n) (hn : n ≤ 2 ^ 64 - 24)
    (hfit : Model.findFit s (roundUp ((n + wsize) % 2 ^ 64) dsize) ≠ some 0) :
    ∃ p s₁ s₂ bs, SegAlloc.Model.malloc s n = some (p, s₁) ∧ SegAlloc.Model.free s₁ p = some s₂ ∧
      getAlloc s (payloadToHeader p) = false ∧
      heapWalk s (loopFuel s) s.heapStart = some bs ∧
      heapWalk s₂ (loopFuel s₂) s₂.heapStart = some bs ∧
      (∀ b ∈ bs, readWord s₂.mem b = readWord s.mem b) ∧
      (∀ b ∈ bs, getAlloc s b = false → getSize s b ≠ minBlockSize →
        readWord s₂.mem (headerToFooter s b) = readWord s.mem (headerToFooter s b)) ∧
      miniWalk s₂ = (if getSize s (payloadToHeader p) = minBlockSize then
        (miniWalk s).map fun l => payloadToHeader p :: l.erase (payloadToHeader p)
        else miniWalk s) ∧
      ∀ i < LENGTH, segWalk s₂ i = (if getSize s (payloadToHeader p) ≠ minBlockSize ∧
        i = findClass (getSize s (payloadToHeader p)) then
          (segWalk s i).map fun l => payloadToHeader p :: l.erase (payloadToHeader p)
        else segWalk s i) := by
  obtain ⟨H, hR, hW, -⟩ := h.inv
  have hL := hW.lists
  set asize := roundUp ((n + wsize) % 2 ^ 64) dsize
  have ha : asize = (n + 23) / 16 * 16 := asize_eq hn
  have hb : View.findFit H asize ≠ 0 := fun hb => hfit (by rw [findFit_eq hR hL, hb])
  obtain ⟨X, hX, hXa, hXf, -, -⟩ := findFit_fits hW hR.lo_pos hb
  -- `malloc` places the request in `X`, and `free` gives `X` back
  obtain ⟨s₁, hrun, hR₁, -⟩ := malloc_rep hR hW hn
  obtain ⟨hW₁, hg⟩ := hW.malloc hR.lo hR.lo_pos hn
  have hmal : View.malloc H n = (headerToPayload X.addr, View.place H X.addr asize) := by
    rw [malloc_of_fit (by omega) hb, hXa]
  rw [hmal] at hrun hR₁ hW₁ hg
  obtain ⟨w, -, hq, -, -⟩ := hg.granted (by simp [headerToPayload, wsize])
  obtain ⟨s₂, hfree, hR₂, -⟩ := free_rep hR₁ hW₁ hq
  have hW₂ := (hW₁.free ⟨w, hq⟩).1
  rw [show headerToPayload X.addr = X.addr + 8 from rfl, hW.free_place hX hXf (by omega)] at hR₂ hW₂
  -- the heap after the round trip
  set H' := (H.erase X.addr X.size).push X.addr X.size
  have hbl : H'.blocks = H.blocks := by simp [H']
  have hmem : ∀ {Y}, Y ∈ H.blocks → Y ∈ H'.blocks := fun hY => hbl ▸ hY
  refine ⟨_, s₁, s₂, _, hrun, hfree, ?_, heapWalk_eq hR, ?_, fun b hb => ?_, fun b hb hf hm => ?_,
    ?_, fun i hi => ?_⟩
  · rw [payloadToHeader_headerToPayload, getAlloc_eq hR hX, hXf]
  · rw [heapWalk_eq hR₂, hbl]
  · obtain ⟨Y, hY, rfl⟩ := List.mem_map.1 hb
    rw [hR₂.header_eq (hmem hY), hR.header_eq hY]
  · obtain ⟨Y, hY, rfl⟩ := List.mem_map.1 hb
    rw [getAlloc_eq hR hY] at hf
    rw [getSize_eq hR hY] at hm
    have hft : Y.hasFooter = true := by simp [Blk.hasFooter, hf, hm]
    have := hR.layout.free_size hY hf
    rw [headerToFooter, getSize_eq hR hY,
      show Y.addr + wsize + Y.size - dsize = Y.footer by simp only [Blk.footer, wsize, dsize]; omega,
      (hR₂.hdrs.2 Y (hmem hY)).2 hft, (hR.hdrs.2 Y hY).2 hft]
  · rw [payloadToHeader_headerToPayload, getSize_eq hR hX, miniWalk_eq hR₂ hW₂.lists,
      miniWalk_eq hR hL, Heap.push_mini, Heap.erase_mini]
    split_ifs <;> rfl
  · rw [payloadToHeader_headerToPayload, getSize_eq hR hX, segWalk_eq hR₂ hW₂.lists hi,
      segWalk_eq hR hL hi, Heap.push_seg, Heap.erase_seg]
    split_ifs <;> rfl

/-- `malloc(24)` then `free` on a heap with a free 32-byte block. -/
theorem malloc_free_restores_replayed :
    let s := (replayed [.malloc 24, .malloc 24, .free 4112]).1
    ∃ p s₁ s₂ bs, SegAlloc.Model.malloc s 24 = some (p, s₁) ∧ SegAlloc.Model.free s₁ p = some s₂ ∧
      getAlloc s (payloadToHeader p) = false ∧
      heapWalk s (loopFuel s) s.heapStart = some bs ∧
      heapWalk s₂ (loopFuel s₂) s₂.heapStart = some bs ∧
      (∀ b ∈ bs, readWord s₂.mem b = readWord s.mem b) ∧
      (∀ b ∈ bs, getAlloc s b = false → getSize s b ≠ minBlockSize →
        readWord s₂.mem (headerToFooter s b) = readWord s.mem (headerToFooter s b)) ∧
      miniWalk s₂ = (if getSize s (payloadToHeader p) = minBlockSize then
        (miniWalk s).map fun l => payloadToHeader p :: l.erase (payloadToHeader p)
        else miniWalk s) ∧
      ∀ i < LENGTH, segWalk s₂ i = (if getSize s (payloadToHeader p) ≠ minBlockSize ∧
        i = findClass (getSize s (payloadToHeader p)) then
          (segWalk s i).map fun l => payloadToHeader p :: l.erase (payloadToHeader p)
        else segWalk s i) :=
  have h := reach_replayed [.malloc 24, .malloc 24, .free 4112] (by decide)
  Reach.malloc_free_restores h.1 (by decide) (by decide)
    (by rw [findFit_eq h.2.1 h.2.2.1.lists]; decide)

/-- A non-`NULL` `realloc(p, n)` is an allocated block of at least `n + 8` bytes holding the
first `min(n, S - 8)` bytes of `p`'s payload, and `p`'s block is freed. -/
theorem Reach.realloc_moves {s s' : State} {live : List Nat} (h : Reach s live) {p n q : Nat}
    (hp : p ∈ live) (hn : n ≤ 2 ^ 64 - 24) (hr : SegAlloc.Model.realloc s p n = some (q, s'))
    (hq : q ≠ 0) :
    getAlloc s' (payloadToHeader q) = true ∧ n + 8 ≤ getSize s' (payloadToHeader q) ∧
      (∀ i < min n (getSize s (payloadToHeader p) - 8), s'.mem (q + i) = s.mem (p + i)) ∧
      ∃ bs, heapWalk s' (loopFuel s') s'.heapStart = some bs ∧
        (∀ b ∈ bs.dropLast, getAlloc s' b = true → headerToPayload b ≠ p) ∧
        ∃ b ∈ bs, getAlloc s' b = false ∧ b ≤ payloadToHeader p ∧
          payloadToHeader p + getSize s (payloadToHeader p) ≤ b + getSize s' b := by
  obtain ⟨H, hR, hW, hT⟩ := h.inv
  obtain ⟨w, hw⟩ := (hT.2 p).1 hp
  have hp0 : p ≠ 0 := fun h0 => hT.zero_not_mem (h0 ▸ hp)
  obtain ⟨s'', hrun, hR', -, hcopy⟩ := realloc_rep hR hW hn (.inr ⟨w, hw⟩)
  obtain ⟨rfl, rfl⟩ := Prod.mk.inj (Option.some.inj (hr.symm.trans hrun))
  -- the abstract `realloc` is `malloc` then `free p`
  have hn0 : n ≠ 0 := fun h0 => hq (by simp [View.realloc, h0])
  obtain ⟨hW₁, hg⟩ := hW.malloc hR.lo hR.lo_pos hn
  have hq₁ : (View.malloc H n).1 ≠ 0 := fun h0 => hq (by simp [View.realloc, hn0, hp0, h0])
  have hre : View.realloc H p n = ((View.malloc H n).1, View.free (View.malloc H n).2 p) := by
    simp [View.realloc, hn0, hp0, hq₁]
  obtain ⟨w₀, hw₀, hq', hold, hnew⟩ := hg.granted hq₁
  obtain ⟨hW', hfree⟩ := hW₁.free ⟨w, hold p w hw⟩
  have hne : (View.malloc H n).1 ≠ p := fun he => hnew w (he ▸ hw)
  have hq'' : Holds (View.realloc H p n).2.blocks (View.realloc H p n).1 w₀ := by
    rw [hre]
    exact (hfree _ _).2 ⟨hq', hne⟩
  obtain ⟨ha, hs⟩ := holds_of_walk hR' hq''
  have hsz : getSize s (payloadToHeader p) = w := (holds_of_walk hR hw).2
  refine ⟨ha, hs ▸ hw₀, fun i hi => hcopy w hw hq i (hsz ▸ hi), _, heapWalk_eq hR',
    fun b hb hba => ?_, ?_⟩
  · obtain ⟨Y, hY, hY0, rfl⟩ := (mem_walk_dropLast hR').1 hb
    rw [getAlloc_eq hR' hY] at hba
    intro he
    rw [hre] at hY
    exact ((hfree _ _).1 ⟨Y, hY, hba, hY0, he, rfl⟩).2 rfl
  · -- `p`'s block is now free, merged with its free neighbours
    obtain ⟨M, hM, hMf, h1, h2⟩ := hW₁.free_merged (hold p w hw)
    replace hM : M ∈ (View.realloc H p n).2.blocks := by rw [hre]; exact hM
    refine ⟨M.addr, List.mem_map_of_mem _ hM, ?_⟩
    rw [hsz, getAlloc_eq hR' hM, getSize_eq hR' hM, payloadToHeader, wsize]
    exact ⟨hMf, h1, h2⟩

/-- `realloc(p, 100)` of the 24-byte allocation `p`. -/
theorem realloc_moves_replayed :
    let s := (replayed [.malloc 24]).1
    let s' := ((SegAlloc.Model.realloc s 4112 100).getD (0, s)).2
    getAlloc s' (payloadToHeader 4144) = true ∧ 100 + 8 ≤ getSize s' (payloadToHeader 4144) ∧
      (∀ i < min 100 (getSize s (payloadToHeader 4112) - 8), s'.mem (4144 + i) = s.mem (4112 + i)) ∧
      ∃ bs, heapWalk s' (loopFuel s') s'.heapStart = some bs ∧
        (∀ b ∈ bs.dropLast, getAlloc s' b = true → headerToPayload b ≠ 4112) ∧
        ∃ b ∈ bs, getAlloc s' b = false ∧ b ≤ payloadToHeader 4112 ∧
          payloadToHeader 4112 + getSize s (payloadToHeader 4112) ≤ b + getSize s' b :=
  have h := reach_replayed [.malloc 24] (by decide)
  Reach.realloc_moves h.1 (by rw [h.2.2.2.2]; decide) (by decide)
    (eq_some_of_fst (q := 4144) _ ((Call.run_fst h.2.1 h.2.2.1 h.2.2.2.1 (c := .realloc 4112 100)
      (by rw [h.2.2.2.2]; decide)).trans (by decide))) (by decide)

/-- The product check of `calloc`: for `k ≥ 1`, `asize / elements != size` holds exactly
when the product `k * z` exceeds a word. -/
theorem calloc_check_iff {k z : Nat} (hk : 0 < k) : k * z % 2 ^ 64 / k ≠ z ↔ 2 ^ 64 ≤ k * z := by
  have hlt := Nat.mod_lt (k * z) (Nat.two_pow_pos 64)
  constructor
  · intro h
    by_contra hw
    exact h (by rw [Nat.mod_eq_of_lt (by omega), Nat.mul_div_cancel_left z hk])
  · intro hw heq
    have := Nat.mul_div_le (k * z % 2 ^ 64) k
    rw [heq] at this
    omega

/-- `calloc` checks its product. `calloc(k, z)` returns `NULL` and changes nothing when
`k = 0` or when the product `k * z` exceeds a word. -/
theorem calloc_of_wrap (s : State) {k z : Nat} (h : k = 0 ∨ 2 ^ 64 ≤ k * z) :
    SegAlloc.Model.calloc s k z = some (0, s) := by
  unfold SegAlloc.Model.calloc
  by_cases hk : k = 0
  · simp [hk]
  · rw [if_neg hk, if_pos ((calloc_check_iff (Nat.pos_of_ne_zero hk)).2 (h.resolve_left hk))]

/-- `calloc` zeroes what it returns. In every reachable state, for a product `k * z`
that `malloc` does not wrap, `calloc(k, z)` returns, and a non-`NULL` result is the payload
of an allocated block with room for `k * z` bytes, all zero. -/
theorem Reach.calloc_zeroed {s : State} {live : List Nat} (h : Reach s live) {k z : Nat}
    (hn : k * z ≤ 2 ^ 64 - 24) : ∃ p s', SegAlloc.Model.calloc s k z = some (p, s') ∧
      (p ≠ 0 → getAlloc s' (payloadToHeader p) = true ∧ k * z + 8 ≤ getSize s' (payloadToHeader p) ∧
        ∀ i < k * z, s'.mem (p + i) = 0) := by
  obtain ⟨H, hR, hW, -⟩ := h.inv
  have hmod : k * z % 2 ^ 64 = k * z := Nat.mod_eq_of_lt (by omega)
  obtain ⟨s', hrun, hR', -, hzero⟩ := calloc_rep hR hW (k := k) (z := z) (by omega)
  refine ⟨_, s', hrun, fun hp => ?_⟩
  -- a non-`NULL` result is `malloc`'s
  have hcal : View.calloc H k z = if k = 0 then (0, H) else
      if k * z % 2 ^ 64 / k ≠ z then (0, H) else View.malloc H (k * z % 2 ^ 64) := rfl
  have hk : k ≠ 0 := fun h0 => hp (by rw [hcal, if_pos h0])
  have hc : k * z % 2 ^ 64 / k = z := by
    by_contra hc
    exact hp (by rw [hcal, if_neg hk, if_pos hc])
  rw [hcal, if_neg hk, if_neg (not_not.2 hc), hmod] at hp hR' hzero ⊢
  obtain ⟨-, hg⟩ := hW.malloc hR.lo hR.lo_pos hn
  obtain ⟨w₀, hw₀, hq, -, -⟩ := hg.granted hp
  obtain ⟨ha, hs⟩ := holds_of_walk hR' hq
  exact ⟨ha, hs ▸ hw₀, hzero hp⟩

/-- `calloc(3, 10)` after `malloc(24)`. -/
theorem calloc_zeroed_replayed :
    let s := (replayed [.malloc 24]).1
    ∃ p s', SegAlloc.Model.calloc s 3 10 = some (p, s') ∧
      (p ≠ 0 → getAlloc s' (payloadToHeader p) = true ∧ 3 * 10 + 8 ≤ getSize s' (payloadToHeader p) ∧
        ∀ i < 3 * 10, s'.mem (p + i) = 0) :=
  Reach.calloc_zeroed (reach_replayed [.malloc 24] (by decide)).1 (by decide)

/-- `calloc(1, 2 ^ 64 - 1)` passes the product check and `malloc` returns a 16-byte block,
so `memset` zeroes the header of the next block. -/
theorem calloc_wraps : ∃ s live, Reach s live ∧ ∃ p s', SegAlloc.Model.calloc s 1 (2 ^ 64 - 1) =
    some (p, s') ∧ p ≠ 0 ∧ getSize s' (payloadToHeader p) < 2 ^ 64 - 1 + 8 ∧
      readWord s'.mem (payloadToHeader p + getSize s' (payloadToHeader p)) = 0 :=
  ⟨_, _, (reach_replayed [] (by decide)).1, _, _, (Option.some_get (by decide)).symm, by decide,
    by decide, by decide⟩

end SegAlloc.Trace
