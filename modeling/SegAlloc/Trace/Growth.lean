import SegAlloc.Trace.Malloc

/-!
# What `malloc` takes and when the heap grows

`mm_init` asks `memlib` for 16 bytes and then `chunksize` more, and returns true exactly
when both are granted; the heap is then one free block of `chunksize` bytes in its bucket
(`mmInit_one_chunk`).
`malloc(n)` hands out a block of exactly `asize = round_up(n + 8, 16)` bytes, cut from
the block `find_fit` found (`Reach.malloc_exact_size`): `split_block` gives the rest back
whenever it can stand as a block of its own. `malloc` calls `mem_sbrk` only when no free
block fits, then once and for `max(asize, chunksize)` bytes; it returns `NULL` exactly
when that call fails, and otherwise the break has moved by exactly that much
(`Reach.malloc_heap_growth`).

Across calls the heap neither moves nor shrinks: `heap_start` and `mem_heap_lo()` stay, the
break only grows, and each call asks `mem_sbrk` once at most, so the lazy `mm_init` of
`malloc` never runs again (`Reach.heap_stable`).
-/

namespace SegAlloc.Trace

open SegAlloc.Machine SegAlloc.Model SegAlloc.View SegAlloc.Refine

/-- No free block of the heap walk fits `asize` exactly when the abstract `find_fit` finds
nothing. -/
theorem noFit_walk_iff {s : State} {H : Heap} (hR : Rep s H) (hW : WF H) {asize : Nat}
    (h16 : 16 ≤ asize) :
    (∀ x ∈ H.blocks.map (·.addr), getAlloc s x = false → getSize s x < asize) ↔
      View.findFit H asize = 0 := by
  rw [findFit_eq_zero hW hR.lo_pos h16]
  simp only [List.mem_map, forall_exists_index, and_imp, forall_apply_eq_imp_iff₂]
  exact forall₂_congr fun X hX => by rw [getAlloc_eq hR hX, getSize_eq hR hX]

/-- `mm_init` returns true exactly when `memlib` grants both its requests, and then lays out
one free chunk, alone in its bucket. -/
theorem mmInit_one_chunk {s₀ : State} (h : Fresh s₀) :
    ∃ ok s, Model.mmInit s₀ = some (ok, s) ∧
      (ok = true ↔ s₀.lib.CanGrow 16 ∧ s₀.lib.grant (s₀.lib.calls + 1) = true ∧
        s₀.lib.lo + 4112 ≤ 2 ^ 64) ∧
      (ok = true → heapWalk s (loopFuel s) s.heapStart = some [s₀.lib.lo + 8, s₀.lib.lo + 4104] ∧
        getAlloc s (s₀.lib.lo + 8) = false ∧ getSize s (s₀.lib.lo + 8) = chunksize ∧
        miniWalk s = some [] ∧
        ∀ i < LENGTH, segWalk s i = some (if i = findClass chunksize then [s₀.lib.lo + 8] else [])) := by
  obtain ⟨ok, s, hinit, hz, hzf, hrep⟩ := mmInit_rep h
  obtain ⟨-, hbrk, hlo, hlo0⟩ := h
  have hb : s₀.lib.brk ≠ sbrkFailed := by rw [hbrk]; unfold sbrkFailed; omega
  have hfirst := MemLib.sbrk_ok_iff (z := 16) (by decide) hb
  refine ⟨ok, s, hinit, ?_⟩
  by_cases hs : s.heapStart = 0
  · -- the first request was refused
    obtain rfl := hzf hs
    exact ⟨iff_of_false Bool.false_ne_true fun h => hfirst.2 h.1 (hz.1 hs),
      fun h => absurd h Bool.false_ne_true⟩
  obtain ⟨hR, hW, -, hok⟩ := hrep hs
  have hg₁ : (s₀.lib.sbrk (toIntptr 16)).1 ≠ sbrkFailed := fun hf => hs (hz.2 hf)
  -- the second request, of `chunksize` bytes, from the heap the first one laid out
  obtain ⟨-, hbrk₁, -⟩ := MemLib.sbrk_granted (by decide) hg₁
  set lib₁ := (s₀.lib.sbrk (toIntptr 16)).2
  have hE := @WF.empty lib₁ _ (MemLib.sbrk_lo _ _) (by rw [hbrk₁, hbrk])
  have hb₁ : lib₁.brk ≠ sbrkFailed := by rw [hbrk₁, hbrk]; unfold sbrkFailed; omega
  have hsecond : (View.extend (Heap.empty lib₁ s₀.lib.lo) chunksize).1 ≠ 0 ↔ lib₁.CanGrow 4096 := by
    rw [← MemLib.sbrk_ok_iff (by decide) hb₁]
    refine ⟨fun he hf => he ?_, extend_ne_zero hE.1 (by decide) (by decide) (by decide)⟩
    rw [extend_of_fail (by exact hf)]
  have hiff : ok = true ↔ s₀.lib.CanGrow 16 ∧ s₀.lib.grant (s₀.lib.calls + 1) = true ∧
      s₀.lib.lo + 4112 ≤ 2 ^ 64 := by
    rw [hok, hsecond, MemLib.CanGrow, MemLib.sbrk_calls, MemLib.sbrk_grant, hbrk₁, hbrk]
    exact ⟨fun ⟨_, h2, h3⟩ => ⟨hfirst.1 hg₁, h2, by omega⟩,
      fun ⟨_, h2, h3⟩ => ⟨by decide, h2, by omega⟩⟩
  refine ⟨hiff, fun ho => ?_⟩
  -- the heap `mm_init` laid out
  obtain ⟨⟨-, h1, -⟩, h2, hroom⟩ := hiff.1 ho
  obtain ⟨hbl, hmini, hseg⟩ := mmInit_chunk hbrk h1 h2 hroom
  have hX : (⟨s₀.lib.lo + 8, 4096, false, true, false⟩ : Blk) ∈ (View.mmInit s₀.lib).blocks := by
    simp [hbl]
  refine ⟨by rw [heapWalk_eq hR, hbl]; rfl, (getAlloc_eq hR hX).trans rfl,
    (getSize_eq hR hX).trans rfl, by rw [miniWalk_eq hR hW.lists, hmini], fun i hi => ?_⟩
  rw [segWalk_eq hR hW.lists hi, hseg, show findClass chunksize = 9 by decide]

/-- `mm_init` on the fresh state of the replayed traces. -/
theorem mmInit_one_chunk_fresh :
    let s₀ := fresh 4096
    ∃ ok s, Model.mmInit s₀ = some (ok, s) ∧
      (ok = true ↔ s₀.lib.CanGrow 16 ∧ s₀.lib.grant (s₀.lib.calls + 1) = true ∧
        s₀.lib.lo + 4112 ≤ 2 ^ 64) ∧
      (ok = true → heapWalk s (loopFuel s) s.heapStart = some [s₀.lib.lo + 8, s₀.lib.lo + 4104] ∧
        getAlloc s (s₀.lib.lo + 8) = false ∧ getSize s (s₀.lib.lo + 8) = chunksize ∧
        miniWalk s = some [] ∧
        ∀ i < LENGTH, segWalk s i = some (if i = findClass chunksize then [s₀.lib.lo + 8] else [])) :=
  mmInit_one_chunk (by decide)

/-- `malloc(n)` hands out a block of exactly `round_up(n + 8, 16)` bytes, the block
`find_fit` found when it found one. -/
theorem Reach.malloc_exact_size {s : State} {live : List Nat} (h : Reach s live) {n asize : Nat}
    (hn0 : n ≠ 0) (hn : n ≤ 2 ^ 64 - 24) (ha : roundUp ((n + wsize) % 2 ^ 64) dsize = asize) :
    ∃ p s', SegAlloc.Model.malloc s n = some (p, s') ∧
      (p ≠ 0 → getAlloc s' (payloadToHeader p) = true ∧ getSize s' (payloadToHeader p) = asize) ∧
      ∀ b, Model.findFit s asize = some b → b ≠ 0 → p = headerToPayload b := by
  obtain ⟨H, hR, hW, -⟩ := h.inv
  obtain ⟨s', hrun, hR', -⟩ := malloc_rep hR hW hn
  rw [asize_eq hn] at ha
  subst ha
  refine ⟨_, s', hrun, fun hp => holds_of_walk hR' (hW.malloc_exact hR.lo hR.lo_pos hn hp),
    fun b hb hb0 => ?_⟩
  rw [findFit_eq hR hW.lists, Option.some_inj] at hb
  subst hb
  exact ((hW.malloc_sbrk hR.lo hn hn0).1 hb0).1

/-- `malloc(100)` after `malloc(24)`: a block of 112 bytes. -/
theorem malloc_exact_size_replayed :
    let s := (replayed [.malloc 24]).1
    ∃ p s', SegAlloc.Model.malloc s 100 = some (p, s') ∧
      (p ≠ 0 → getAlloc s' (payloadToHeader p) = true ∧ getSize s' (payloadToHeader p) = 112) ∧
      ∀ b, Model.findFit s 112 = some b → b ≠ 0 → p = headerToPayload b :=
  Reach.malloc_exact_size (reach_replayed [.malloc 24] (by decide)).1 (by decide) (by decide)
    (by decide)

/-- `malloc` calls `mem_sbrk` only when no free block fits, once, for `max(asize, chunksize)`
bytes, and returns `NULL` exactly when that call fails. -/
theorem Reach.malloc_heap_growth {s : State} {live : List Nat} (h : Reach s live)
    {n asize : Nat} (hn0 : n ≠ 0) (hn : n ≤ 2 ^ 64 - 24)
    (ha : roundUp ((n + wsize) % 2 ^ 64) dsize = asize) :
    ∃ bs p s', heapWalk s (loopFuel s) s.heapStart = some bs ∧
      SegAlloc.Model.malloc s n = some (p, s') ∧
      ((∃ x ∈ bs, getAlloc s x = false ∧ asize ≤ getSize s x) → p ≠ 0 ∧ s'.lib = s.lib) ∧
      ((∀ x ∈ bs, getAlloc s x = false → getSize s x < asize) →
        s'.lib.lo = s.lib.lo ∧ s'.lib.calls = s.lib.calls + 1 ∧
        (s.lib.CanGrow (max asize chunksize) →
          p ≠ 0 ∧ s'.lib.brk = s.lib.brk + max asize chunksize) ∧
        (¬s.lib.CanGrow (max asize chunksize) → p = 0 ∧ s'.lib.brk = s.lib.brk)) := by
  obtain ⟨H, hR, hW, -⟩ := h.inv
  obtain ⟨s', hrun, hR', -⟩ := malloc_rep hR hW hn
  rw [asize_eq hn] at ha
  subst ha
  have h16 : 16 ≤ (n + 23) / 16 * 16 := by omega
  have hzlt : max ((n + 23) / 16 * 16) chunksize < 2 ^ 64 := by simp only [chunksize]; omega
  have hbrk := hR.brk_ne_failed
  rw [hR.lib] at hbrk ⊢
  refine ⟨_, _, s', heapWalk_eq hR, hrun, fun ⟨x, hx, hxf, hxs⟩ => ?_, fun hno => ?_⟩
  · -- a free block fits: no call of `mem_sbrk`
    have hb : View.findFit H ((n + 23) / 16 * 16) ≠ 0 := fun hb =>
      absurd ((noFit_walk_iff hR hW h16).2 hb x hx hxf) (not_lt.2 hxs)
    obtain ⟨hp, hlib⟩ := (hW.malloc_sbrk hR.lo hn hn0).1 hb
    exact ⟨by rw [hp]; simp [headerToPayload, wsize], hR'.lib.trans hlib⟩
  · -- nothing fits: one call of `mem_sbrk`
    obtain ⟨hlib, hnull⟩ := (hW.malloc_sbrk hR.lo hn hn0).2 ((noFit_walk_iff hR hW h16).1 hno)
    have hok := MemLib.sbrk_ok_iff hzlt hbrk
    rw [hR'.lib, hlib]
    refine ⟨MemLib.sbrk_lo _ _, MemLib.sbrk_calls _ _, fun hg => ?_, fun hg => ?_⟩
    · have hs := hok.2 hg
      exact ⟨fun hp => hs (hnull.1 hp), (MemLib.sbrk_granted hzlt hs).2.1⟩
    · have hs := not_not.1 (mt hok.1 hg)
      exact ⟨hnull.2 hs, MemLib.sbrk_failed_brk hbrk hs⟩

/-- `malloc(5000)` on the first reachable state, whose one free block has 4096 bytes: the
heap grows by 5008 bytes. -/
theorem malloc_heap_growth_replayed :
    let s := (replayed []).1
    ∃ bs p s', heapWalk s (loopFuel s) s.heapStart = some bs ∧
      SegAlloc.Model.malloc s 5000 = some (p, s') ∧
      ((∃ x ∈ bs, getAlloc s x = false ∧ 5008 ≤ getSize s x) → p ≠ 0 ∧ s'.lib = s.lib) ∧
      ((∀ x ∈ bs, getAlloc s x = false → getSize s x < 5008) →
        s'.lib.lo = s.lib.lo ∧ s'.lib.calls = s.lib.calls + 1 ∧
        (s.lib.CanGrow (max 5008 chunksize) →
          p ≠ 0 ∧ s'.lib.brk = s.lib.brk + max 5008 chunksize) ∧
        (¬s.lib.CanGrow (max 5008 chunksize) → p = 0 ∧ s'.lib.brk = s.lib.brk)) :=
  Reach.malloc_heap_growth (reach_replayed [] (by decide)).1 (by decide) (by decide) (by decide)

/-- After `free(p)`, every request that fits `p`'s block is served without touching
`memlib`. -/
theorem Reach.free_reused {s : State} {live : List Nat} (h : Reach s live) {p n : Nat}
    (hp : p ∈ live) (hn0 : n ≠ 0) (hn : n ≤ 2 ^ 64 - 24)
    (hfit : roundUp ((n + wsize) % 2 ^ 64) dsize ≤ getSize s (payloadToHeader p)) :
    ∃ s₁ q s₂, SegAlloc.Model.free s p = some s₁ ∧ SegAlloc.Model.malloc s₁ n = some (q, s₂) ∧
      q ≠ 0 ∧ s₁.lib = s.lib ∧ s₂.lib = s₁.lib := by
  obtain ⟨H, hR, hW, hT⟩ := h.inv
  obtain ⟨w, hq⟩ := (hT.2 p).1 hp
  rw [(holds_of_walk hR hq).2, asize_eq hn] at hfit
  obtain ⟨s₁, hfree, hR₁, -⟩ := free_rep hR hW hq
  have hW₁ := (hW.free ⟨w, hq⟩).1
  -- the merged block holds the request
  obtain ⟨M, hM, hMf, h1, h2⟩ := hW.free_merged hq
  have hb : View.findFit (View.free H p) ((n + 23) / 16 * 16) ≠ 0 := fun hb =>
    absurd ((findFit_eq_zero hW₁ hR₁.lo_pos (by omega)).1 hb M hM hMf) (by omega)
  obtain ⟨hq', hlib⟩ := (hW₁.malloc_sbrk hR₁.lo hn hn0).1 hb
  obtain ⟨s₂, hrun, hR₂, -⟩ := malloc_rep hR₁ hW₁ hn
  refine ⟨s₁, _, s₂, hfree, hrun, by rw [hq']; simp [headerToPayload, wsize], ?_, ?_⟩
  · rw [hR₁.lib, hR.lib, free_lib]
  · rw [hR₂.lib, hlib, hR₁.lib]

/-- Freeing the first of two 112-byte blocks and asking for 100 bytes again. -/
theorem free_reused_replayed :
    let r := replayed [.malloc 100, .malloc 100]
    ∃ s₁ q s₂, SegAlloc.Model.free r.1 4112 = some s₁ ∧ SegAlloc.Model.malloc s₁ 100 = some (q, s₂) ∧
      q ≠ 0 ∧ s₁.lib = r.1.lib ∧ s₂.lib = s₁.lib :=
  have h := reach_replayed [.malloc 100, .malloc 100] (by decide)
  Reach.free_reused h.1 (by rw [h.2.2.2.2]; decide) (by decide) (by decide)
    (by rw [(holds_of_walk h.2.1
      (show Holds (viewed [.malloc 100, .malloc 100]).1.blocks 4112 112 by decide)).2]; decide)

/-- A call asks `mem_sbrk` once at most. -/
theorem Call.apply_grown (c : Call) (H : Heap) : H.lib.Grown (c.apply H).2.lib 1 := by
  cases c with
  | malloc n => exact malloc_grown H n
  | calloc k z => exact calloc_grown H k z
  | realloc p n => exact realloc_grown H p n
  | free p =>
    show H.lib.Grown (View.free H p).lib 1
    rw [free_lib]
    exact (MemLib.Grown.refl _).mono (Nat.zero_le 1)

/-- One call from a state that keeps the invariant keeps `heap_start` and grows the heap by
one `mem_sbrk` at most. -/
theorem Inv.call_grown {s s' : State} {live : List Nat} {c : Call} {q : Nat} (h : Inv s live)
    (hc : c.Ok live) (hrun : c.run s = some (q, s')) :
    s'.heapStart = s.heapStart ∧ s.lib.Grown s'.lib 1 := by
  obtain ⟨H, hR, hW, hT⟩ := h
  obtain ⟨s'', hrun', hR', -⟩ := Call.run_rep hR hW hT hc
  rw [hrun] at hrun'
  obtain ⟨-, rfl⟩ := Prod.mk.inj (Option.some.inj hrun')
  have hg := c.apply_grown H
  rw [hR'.start, hR.start, hR'.lib, hR.lib, hg.lo]
  exact ⟨rfl, hg⟩

/-- Along every trace `heap_start` and `mem_heap_lo()` stay, the break never moves down, and
each call makes one `mem_sbrk` call at most. -/
theorem Reach.heap_stable {s : State} {live : List Nat} (h : Reach s live) :
    ∀ {cs : List Call} {s' : State} {live' : List Nat}, runTrace cs s live = some (s', live') →
      s'.heapStart = s.heapStart ∧ s.lib.Grown s'.lib cs.length
  | [], _, _, hr => by
    cases hr
    exact ⟨rfl, MemLib.Grown.refl _⟩
  | c :: cs, _, _, hr => by
    unfold runTrace at hr
    split_ifs at hr with hc
    split at hr
    · rename_i q s₁ hrun
      obtain ⟨hst, hg⟩ := h.inv.call_grown hc hrun
      obtain ⟨hst', hg'⟩ := Reach.heap_stable (h.call hc hrun) hr
      refine ⟨hst'.trans hst, (hg.trans hg').mono ?_⟩
      rw [List.length_cons, Nat.add_comm]
    · cases hr

/-- Growing the heap for `malloc(5000)` on the first reachable state, then freeing. -/
theorem heap_stable_replayed :
    let s := (replayed []).1
    ∃ s' live', runTrace [.malloc 5000, .free 4112] s (replayed []).2 = some (s', live') ∧
      s'.heapStart = s.heapStart ∧ s.lib.Grown s'.lib 2 := by
  obtain ⟨h, hR, hW, hT, hl⟩ := reach_replayed [] (by decide)
  obtain ⟨⟨H', l'⟩, hv⟩ := Option.isSome_iff_exists.1
    (show (runView [.malloc 5000, .free 4112] (viewed []).1 (viewed []).2).isSome by decide)
  rw [← hl] at hv
  obtain ⟨s', hr, -⟩ := runTrace_rep hR hW hT hv
  exact ⟨s', l', hr, Reach.heap_stable h hr⟩

end SegAlloc.Trace
