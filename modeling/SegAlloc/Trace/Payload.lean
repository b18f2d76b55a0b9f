import SegAlloc.Trace.Shape

/-!
# Payloads are the client's

Two facts about the bytes of allocated payloads. No call writes into the payload of a
live pointer it does not end (`Reach.call_keeps_payload`). And no call reads them: two
runs of one client that write different bytes into their payloads return the same
pointers and keep the same headers and free lists (`Twin.call_agree`), because the
representation relation never looks inside an allocated payload.
-/

namespace SegAlloc.Trace

open SegAlloc.Machine SegAlloc.Model SegAlloc.View SegAlloc.Refine

/-- A call keeps the payloads it does not end. In a reachable state, a call that is
neither `free(p)`, nor `realloc(p, 0)`, nor a `realloc(p, n)` that returns a new block,
leaves every byte of the payload of the live pointer `p` as it was. -/
theorem Reach.call_keeps_payload {s s' : State} {live : List Nat} (h : Reach s live) {c : Call}
    (hc : c.Ok live) {q : Nat} (hrun : c.run s = some (q, s')) {p : Nat} (hp : p ∈ live)
    (hend : ¬c.Ends q p) : ∀ i, i + 8 < getSize s (payloadToHeader p) → s'.mem (p + i) = s.mem (p + i) := by
  obtain ⟨H, hR, hW, hT⟩ := h.inv
  obtain ⟨s'', hrun', -, hfr⟩ := Call.run_rep hR hW hT hc
  obtain ⟨rfl, rfl⟩ := Prod.mk.inj (Option.some.inj (hrun.symm.trans hrun'))
  obtain ⟨w, X, hX, hXa, hX0, rfl, rfl⟩ := (hT.2 p).1 hp
  have hw : Holds H.blocks (X.addr + 8) X.size := ⟨X, hX, hXa, hX0, rfl, rfl⟩
  intro i hi
  rw [payloadToHeader, wsize, Nat.add_sub_cancel, getSize_eq hR hX] at hi
  refine hfr.keep fun hx => hx.elim (fun hn => hn ⟨X, hX, hXa, by omega, by omega⟩) ?_
  rintro ⟨p', w', hends, hw', h1, h2⟩
  obtain ⟨rfl, -⟩ := hR.layout.payload_unique hw' hw ⟨h1, h2⟩ ⟨by omega, by omega⟩
  exact hend hends

/-- A second `malloc(24)` keeps the payload of the first. -/
theorem call_keeps_payload_replayed :
    let s := (replayed [.malloc 24]).1
    ∀ i, i + 8 < getSize s (payloadToHeader 4112) →
      (((Call.malloc 24).run s).getD (0, s)).2.mem (4112 + i) = s.mem (4112 + i) :=
  have h := reach_replayed [.malloc 24] (by decide)
  Reach.call_keeps_payload h.1 (c := .malloc 24) (by decide)
    (eq_some_of_fst _ (Call.run_fst h.2.1 h.2.2.1 h.2.2.2.1 (by decide))) (p := 4112)
    (by rw [h.2.2.2.2]; decide) (by simp [Call.Ends])

/-- Two runs of one client from one reachable state: they make the same calls with the
same arguments, `mem_sbrk` answers both alike, and each writes what it likes into the
payloads it holds. -/
inductive Twin : State → State → List Nat → Prop
  | start {s : State} {live : List Nat} : Reach s live → Twin s s live
  | call {s₁ s₂ s₁' s₂' : State} {live : List Nat} {c : Call} {q : Nat} : Twin s₁ s₂ live →
      c.Ok live → c.run s₁ = some (q, s₁') → c.run s₂ = some (q, s₂') → Twin s₁' s₂' (c.live q live)
  | write₁ {s₁ s₂ : State} {live : List Nat} {m : Mem} : Twin s₁ s₂ live →
      Frame s₁.mem m (InLive s₁ live) → Twin { s₁ with mem := m } s₂ live
  | write₂ {s₁ s₂ : State} {live : List Nat} {m : Mem} : Twin s₁ s₂ live →
      Frame s₂.mem m (InLive s₂ live) → Twin s₁ { s₂ with mem := m } live

/-- What the allocator keeps of a heap agrees between two states: the `memlib` side, the
heap walk and the header word of every block it meets and of the prologue, the mini list
and every bucket, in order. -/
structure Agree (s₁ s₂ : State) : Prop where
  lib : s₁.lib = s₂.lib
  walk : ∃ bs, heapWalk s₁ (loopFuel s₁) s₁.heapStart = some bs ∧
    heapWalk s₂ (loopFuel s₂) s₂.heapStart = some bs ∧
    ∀ b ∈ memHeapLo s₁ :: bs, readWord s₁.mem b = readWord s₂.mem b
  mini : miniWalk s₁ = miniWalk s₂
  seg : ∀ i < LENGTH, segWalk s₁ i = segWalk s₂ i

/-- Two states that hold the same heap agree. -/
theorem agree_of_rep {s₁ s₂ : State} {H : Heap} (hR₁ : Rep s₁ H) (hR₂ : Rep s₂ H) (hL : Lists H) :
    Agree s₁ s₂ := by
  refine ⟨hR₁.lib.trans hR₂.lib.symm, ⟨_, heapWalk_eq hR₁, heapWalk_eq hR₂, fun b hb => ?_⟩,
    (miniWalk_eq hR₁ hL).trans (miniWalk_eq hR₂ hL).symm,
    fun i hi => (segWalk_eq hR₁ hL hi).trans (segWalk_eq hR₂ hL hi).symm⟩
  rcases List.mem_cons.1 hb with rfl | hb
  · rw [memHeapLo, hR₁.lib, hR₁.hdrs.1, hR₂.hdrs.1]
  · obtain ⟨X, hX, rfl⟩ := List.mem_map.1 hb
    rw [hR₁.header_eq hX, hR₂.header_eq hX]

/-- Both runs hold one heap, which keeps the invariant and whose allocations are the
live pointers. -/
theorem Twin.inv {s₁ s₂ : State} {live : List Nat} (h : Twin s₁ s₂ live) :
    ∃ H, Rep s₁ H ∧ Rep s₂ H ∧ WF H ∧ Tracks H live := by
  induction h with
  | start h =>
    obtain ⟨H, hR, hW, hT⟩ := h.inv
    exact ⟨H, hR, hR, hW, hT⟩
  | call _ hc h₁ h₂ ih =>
    obtain ⟨H, hR₁, hR₂, hW, hT⟩ := ih
    obtain ⟨s₁', h₁', hR₁', -⟩ := Call.run_rep hR₁ hW hT hc
    obtain ⟨s₂', h₂', hR₂', -⟩ := Call.run_rep hR₂ hW hT hc
    obtain ⟨rfl, rfl⟩ := Prod.mk.inj (Option.some.inj (h₁.symm.trans h₁'))
    obtain ⟨-, rfl⟩ := Prod.mk.inj (Option.some.inj (h₂.symm.trans h₂'))
    exact ⟨_, hR₁', hR₂', Call.apply_wf hR₁ hW hT hc⟩
  | write₁ _ hfr ih =>
    obtain ⟨H, hR₁, hR₂, hW, hT⟩ := ih
    exact ⟨H, hR₁.write_payload hW.lists (hfr.mono fun x hx => Inv.inLive hR₁ hT hx), hR₂, hW, hT⟩
  | write₂ _ hfr ih =>
    obtain ⟨H, hR₁, hR₂, hW, hT⟩ := ih
    exact ⟨H, hR₁, hR₂.write_payload hW.lists (hfr.mono fun x hx => Inv.inLive hR₂ hT hx), hW, hT⟩

/-- No allocator decision reads a payload. Whatever bytes the two runs wrote into
their payloads, the next call returns the same pointer in both, and afterwards the two
heaps have the same blocks, header words and free lists. -/
theorem Twin.call_agree {s₁ s₂ : State} {live : List Nat} (h : Twin s₁ s₂ live) {c : Call}
    (hc : c.Ok live) : ∃ q s₁' s₂', c.run s₁ = some (q, s₁') ∧ c.run s₂ = some (q, s₂') ∧
      Twin s₁' s₂' (c.live q live) ∧ Agree s₁' s₂' := by
  obtain ⟨H, hR₁, hR₂, hW, hT⟩ := h.inv
  obtain ⟨s₁', h₁, hR₁', -⟩ := Call.run_rep hR₁ hW hT hc
  obtain ⟨s₂', h₂, hR₂', -⟩ := Call.run_rep hR₂ hW hT hc
  exact ⟨_, s₁', s₂', h₁, h₂, h.call hc h₁ h₂,
    agree_of_rep hR₁' hR₂' (Call.apply_wf hR₁ hW hT hc).1.lists⟩

/-- Two runs that differ in one payload byte agree on the next `malloc`. -/
theorem call_agree_replayed :
    let r := replayed [.malloc 24]
    ∃ q s₁' s₂', (Call.malloc 40).run r.1 = some (q, s₁') ∧
      (Call.malloc 40).run { r.1 with mem := Function.update r.1.mem 4112 7 } = some (q, s₂') ∧
      Twin s₁' s₂' ((Call.malloc 40).live q r.2) ∧ Agree s₁' s₂' :=
  have h := reach_replayed [.malloc 24] (by decide)
  Twin.call_agree ((Twin.start h.1).write₂
    (frame_update _ 7 (inLive_of_mem h.2.1 h.2.2.2.1 (by rw [h.2.2.2.2]; decide)))) (by decide)

end SegAlloc.Trace
