import SegAlloc.Refine.Api

/-!
# Client traces

A client runs `mm_init`, then calls `malloc`, `calloc`, `realloc` and `free`,
passing `NULL` or pointers it holds and requests that do not wrap
(`round_up(n + 8, 16)` with `n ≤ 2 ^ 64 - 24`), and writes what it likes into the
payloads of the pointers it holds. `Reach s live` says that `s` is the state after
such a trace and `live` the pointers the client holds. `mem_sbrk` may refuse any
request; when it grants one, it appends exactly the requested bytes.

Every reachable state holds a heap that keeps the invariant and whose allocations
are exactly the live pointers (`Reach.inv`): each call preserves this
(`Inv.call`), and so does each client write (`Inv.write`).

The driver `runTrace` runs `mm_init` on a fresh state and then the calls of a trace,
refusing a call the client may not make, and what it reaches is reachable. `runView` is
the same driver over the abstract operations: from a state holding a heap, every trace it
accepts runs on the bytes to a state holding the heap it computes (`runTrace_rep`), so
what a concrete trace reaches is known from the abstract run alone.
-/

namespace SegAlloc.Trace

open SegAlloc.Machine SegAlloc.Model SegAlloc.View SegAlloc.Refine

/-- A call of the interface. -/
inductive Call where
  | malloc (n : Nat)
  | calloc (k size : Nat)
  | realloc (p n : Nat)
  | free (p : Nat)
  deriving Repr, DecidableEq

namespace Call

/-- The call on the byte-level model: the returned pointer (`0` for `free`) and the state. -/
def run : Call → State → Option (Nat × State)
  | malloc n, s => Model.malloc s n
  | calloc k z, s => Model.calloc s k z
  | realloc p n, s => Model.realloc s p n
  | free p, s => (Model.free s p).map fun s => (0, s)

/-- The call on the decoded heap. -/
def apply : Call → Heap → Nat × Heap
  | malloc n, H => View.malloc H n
  | calloc k z, H => View.calloc H k z
  | realloc p n, H => View.realloc H p n
  | free p, H => (0, View.free H p)

/-- What the client may pass: `NULL` or live pointers, and requests that do not wrap. -/
def Ok (live : List Nat) : Call → Prop
  | malloc n => n ≤ 2 ^ 64 - 24
  | calloc k z => k * z ≤ 2 ^ 64 - 24
  | realloc p n => (p = 0 ∨ p ∈ live) ∧ n ≤ 2 ^ 64 - 24
  | free p => p = 0 ∨ p ∈ live

instance (live : List Nat) : (c : Call) → Decidable (c.Ok live)
  | malloc n => inferInstanceAs (Decidable (n ≤ 2 ^ 64 - 24))
  | calloc k z => inferInstanceAs (Decidable (k * z ≤ 2 ^ 64 - 24))
  | realloc p n => inferInstanceAs (Decidable ((p = 0 ∨ p ∈ live) ∧ n ≤ 2 ^ 64 - 24))
  | free p => inferInstanceAs (Decidable (p = 0 ∨ p ∈ live))

/-- The live pointers after the call returned `q`. -/
def live : Call → Nat → List Nat → List Nat
  | malloc _, q, l => if q = 0 then l else q :: l
  | calloc _ _, q, l => if q = 0 then l else q :: l
  | realloc p n, q, l => if n = 0 then l.erase p else if q = 0 then l else q :: l.erase p
  | free p, _, l => l.erase p

/-- The call, returning `q`, ends the allocation `p`: `free(p)`, `realloc(p, 0)`, or a
`realloc(p, n)` that returned a new block. -/
def Ends (q p : Nat) : Call → Prop
  | realloc p' n => p' = p ∧ (n = 0 ∨ q ≠ 0)
  | free p' => p' = p
  | _ => False

end Call

/-- `x` lies in the payload `[p, p + get_size(p - 8) - 8)` of a live pointer `p`. -/
def InLive (s : State) (live : List Nat) (x : Nat) : Prop :=
  ∃ p ∈ live, p ≤ x ∧ x + 8 < p + getSize s (payloadToHeader p)

/-- Reachable states and the pointers the client holds in them. -/
inductive Reach : State → List Nat → Prop
  | init {s₀ s : State} {ok : Bool} : Fresh s₀ → mmInit s₀ = some (ok, s) → s.heapStart ≠ 0 →
      Reach s []
  | call {s s' : State} {live : List Nat} {c : Call} {q : Nat} : Reach s live → c.Ok live →
      c.run s = some (q, s') → Reach s' (c.live q live)
  | write {s : State} {live : List Nat} {m : Mem} : Reach s live → Frame s.mem m (InLive s live) →
      Reach { s with mem := m } live

/-- The allocations of `H` are exactly the live pointers, each held once. -/
def Tracks (H : Heap) (live : List Nat) : Prop :=
  live.Nodup ∧ ∀ p, p ∈ live ↔ ∃ w, Holds H.blocks p w

section Tracks

variable {H H' : Heap} {live : List Nat} (h : Tracks H live)
include h

theorem Tracks.zero_not_mem : 0 ∉ live := fun h0 => by
  obtain ⟨w, b, -, -, -, hb, -⟩ := (h.2 0).1 h0
  omega

/-- A granted request adds its pointer. -/
theorem Tracks.grant {n q : Nat} (hg : Grants H n q H') :
    Tracks H' (if q = 0 then live else q :: live) := by
  by_cases hq : q = 0
  · rw [if_pos hq, Tracks, hg.1 hq]
    exact h
  · obtain ⟨hnew, w₀, -, hiff⟩ := hg.2 hq
    rw [if_neg hq]
    refine ⟨List.nodup_cons.2 ⟨fun hm => ?_, h.1⟩, fun p => ?_⟩
    · obtain ⟨w, hw⟩ := (h.2 q).1 hm
      exact hnew w hw
    · simp only [List.mem_cons, h.2 p, hiff]
      constructor
      · rintro (rfl | ⟨w, hw⟩)
        · exact ⟨w₀, .inr ⟨rfl, rfl⟩⟩
        · exact ⟨w, .inl hw⟩
      · rintro ⟨w, hw | ⟨rfl, -⟩⟩
        · exact .inr ⟨w, hw⟩
        · exact .inl rfl

/-- Freeing `p` removes it. -/
theorem Tracks.free {p : Nat} (hH : ∀ q w, Holds H'.blocks q w ↔ Holds H.blocks q w ∧ q ≠ p) :
    Tracks H' (live.erase p) := by
  refine ⟨h.1.erase p, fun q => ?_⟩
  rw [h.1.mem_erase_iff]
  simp only [hH, h.2 q]
  constructor
  · rintro ⟨hne, w, hw⟩; exact ⟨w, hw, hne⟩
  · rintro ⟨w, hw, hne⟩; exact ⟨hne, w, hw⟩

end Tracks

section Calls

variable {s : State} {H : Heap} (hR : Rep s H) (hW : WF H) {live : List Nat}
  (hT : Tracks H live) {c : Call} (hc : c.Ok live)
include hR hW hT hc

/-- Every call refines its abstract counterpart. It returns, with the abstract result,
holds the abstract heap, and writes no byte of an allocated payload but those of the
allocation it ends. -/
theorem Call.run_rep : ∃ s', c.run s = some ((c.apply H).1, s') ∧ Rep s' (c.apply H).2 ∧
    Frame s.mem s'.mem (fun x => ¬InPayload H.blocks x ∨
      ∃ p w, c.Ends (c.apply H).1 p ∧ Holds H.blocks p w ∧ p ≤ x ∧ x + 8 < p + w) := by
  cases c with
  | malloc n =>
    obtain ⟨s', h1, h2, h3⟩ := malloc_rep hR hW hc
    exact ⟨s', h1, h2, h3.mono fun _ h => .inl h⟩
  | calloc k z =>
    obtain ⟨s', h1, h2, h3, -⟩ := calloc_rep hR hW (k := k) (z := z)
      (by rw [Nat.mod_eq_of_lt (by simp only [Call.Ok] at hc; omega)]; exact hc)
    exact ⟨s', h1, h2, h3.mono fun _ h => .inl h⟩
  | realloc p n =>
    obtain ⟨s', h1, h2, h3, -⟩ := realloc_rep hR hW hc.2 (hc.1.imp_right (hT.2 p).1)
    exact ⟨s', h1, h2, h3.mono fun x h => h.imp_right fun ⟨hq, w, hw, hx⟩ =>
      ⟨p, w, ⟨rfl, hq⟩, hw, hx⟩⟩
  | free p =>
    rcases hc with rfl | hp
    · exact ⟨s, by simp [Call.run, Call.apply, Model.free], by simpa [Call.apply, View.free] using hR,
        Frame.refl _ _⟩
    · obtain ⟨w, hw⟩ := (hT.2 p).1 hp
      obtain ⟨s', h1, h2, h3⟩ := free_rep hR hW hw
      exact ⟨s', by simp [Call.run, Call.apply, h1], h2, h3.mono fun x h =>
        h.imp_right fun hx => ⟨p, w, rfl, hw, hx⟩⟩

/-- A call returns the pointer of its abstract counterpart. -/
theorem Call.run_fst : (c.run s).map Prod.fst = some (c.apply H).1 := by
  obtain ⟨s', h, -⟩ := Call.run_rep hR hW hT hc
  rw [h]
  rfl

/-- Every call keeps the invariant and the live pointers. -/
theorem Call.apply_wf : WF (c.apply H).2 ∧ Tracks (c.apply H).2 (c.live (c.apply H).1 live) := by
  have hfree : ∀ {H₁ : Heap} {l : List Nat} {p : Nat}, WF H₁ → Tracks H₁ l → (p = 0 ∨ p ∈ l) →
      WF (View.free H₁ p) ∧ Tracks (View.free H₁ p) (l.erase p) := fun hW₁ hT₁ hp => by
    rcases hp with rfl | hp
    · rw [List.erase_of_not_mem hT₁.zero_not_mem]
      simpa [View.free] using ⟨hW₁, hT₁⟩
    · obtain ⟨hW', hH'⟩ := hW₁.free ((hT₁.2 _).1 hp)
      exact ⟨hW', hT₁.free hH'⟩
  cases c with
  | malloc n =>
    obtain ⟨hW', hg⟩ := hW.malloc hR.lo hR.lo_pos hc
    exact ⟨hW', hT.grant hg⟩
  | calloc k z =>
    have hT0 : Tracks H (if (0 : Nat) = 0 then live else 0 :: live) := by rw [if_pos rfl]; exact hT
    simp only [Call.apply, Call.live, View.calloc]
    by_cases h1 : k = 0
    · rw [if_pos h1]
      exact ⟨hW, hT0⟩
    by_cases h2 : k * z % 2 ^ 64 / k ≠ z
    · rw [if_neg h1, if_pos h2]
      exact ⟨hW, hT0⟩
    rw [if_neg h1, if_neg h2]
    obtain ⟨hW', hg⟩ := hW.malloc hR.lo hR.lo_pos (n := k * z % 2 ^ 64)
      (by rw [Nat.mod_eq_of_lt (by simp only [Call.Ok] at hc; omega)]; exact hc)
    exact ⟨hW', hT.grant hg⟩
  | realloc p n =>
    simp only [Call.apply, Call.live, View.realloc]
    obtain ⟨hp, hn⟩ := hc
    by_cases hn0 : n = 0
    · simp only [hn0, if_true]
      exact hfree hW hT hp
    simp only [hn0, if_false]
    obtain ⟨hW₁, hg⟩ := hW.malloc hR.lo hR.lo_pos hn
    have hT₁ := hT.grant hg
    by_cases hp0 : p = 0
    · subst hp0
      rw [if_pos rfl, List.erase_of_not_mem hT.zero_not_mem]
      exact ⟨hW₁, hT₁⟩
    have hpl : p ∈ live := hp.resolve_left hp0
    rw [if_neg hp0]
    by_cases hq : (View.malloc H n).1 = 0
    · simp only [hq, if_true] at hT₁ ⊢
      exact ⟨hW₁, hT₁⟩
    · simp only [hq, if_false] at hT₁ ⊢
      have hpq : (View.malloc H n).1 ≠ p := fun h =>
        (List.nodup_cons.1 hT₁.1).1 (h ▸ hpl)
      have h := hfree hW₁ hT₁ (.inr (List.mem_cons_of_mem _ hpl))
      rwa [List.erase_cons_tail (by simpa using hpq)] at h
  | free p => exact hfree hW hT hc

end Calls

/-- The invariant of reachable states: the state holds a heap that keeps the invariant and
whose allocations are the live pointers. -/
def Inv (s : State) (live : List Nat) : Prop :=
  ∃ H, Rep s H ∧ WF H ∧ Tracks H live

section Inv

variable {s s' : State} {live : List Nat}

/-- `mm_init` from a fresh state establishes the invariant with no live pointer. -/
theorem Inv.init {s₀ : State} {ok : Bool} (h₀ : Fresh s₀) (h : mmInit s₀ = some (ok, s))
    (hs : s.heapStart ≠ 0) : Inv s [] := by
  obtain ⟨ok', s', h', -, -, hH⟩ := mmInit_rep h₀
  rw [h] at h'
  obtain ⟨-, rfl⟩ := Prod.mk.inj (Option.some.inj h')
  obtain ⟨hR, hW, hnone, -⟩ := hH hs
  exact ⟨_, hR, hW, List.nodup_nil, fun p => by simp [hnone]⟩

/-- Each call keeps the invariant. -/
theorem Inv.call {c : Call} {q : Nat} (h : Inv s live) (hc : c.Ok live)
    (hrun : c.run s = some (q, s')) : Inv s' (c.live q live) := by
  obtain ⟨H, hR, hW, hT⟩ := h
  obtain ⟨s'', hrun', hR', -⟩ := Call.run_rep hR hW hT hc
  rw [hrun] at hrun'
  obtain ⟨rfl, rfl⟩ := Prod.mk.inj (Option.some.inj hrun')
  obtain ⟨hW', hT'⟩ := Call.apply_wf hR hW hT hc
  exact ⟨_, hR', hW', hT'⟩

/-- The payload of a live pointer, as `get_size` reads it, is an allocated payload. -/
theorem Inv.inLive {H : Heap} (hR : Rep s H) (hT : Tracks H live) {x : Nat}
    (hx : InLive s live x) : InPayload H.blocks x := by
  obtain ⟨p, hp, h1, h2⟩ := hx
  obtain ⟨w, b, hb, hba, -, rfl, rfl⟩ := (hT.2 p).1 hp
  rw [payloadToHeader, wsize, Nat.add_sub_cancel, getSize_eq hR hb] at h2
  exact ⟨b, hb, hba, h1, by omega⟩

/-- The first payload byte of a live pointer is the client's to write. -/
theorem inLive_of_mem {H : Heap} (hR : Rep s H) (hT : Tracks H live) {p : Nat} (hp : p ∈ live) :
    InLive s live p := by
  obtain ⟨w, b, hb, -, hb0, rfl, rfl⟩ := (hT.2 p).1 hp
  have := (hR.size_ok hb).1
  refine ⟨_, hp, le_rfl, ?_⟩
  rw [payloadToHeader, wsize, Nat.add_sub_cancel, getSize_eq hR hb]
  omega

/-- Client writes into live payloads keep the invariant. -/
theorem Inv.write {m : Mem} (h : Inv s live) (hfr : Frame s.mem m (InLive s live)) :
    Inv { s with mem := m } live := by
  obtain ⟨H, hR, hW, hT⟩ := h
  exact ⟨H, hR.write_payload hW.lists (hfr.mono fun x hx => Inv.inLive hR hT hx), hW, hT⟩

/-- Every reachable state keeps the invariant. -/
theorem Reach.inv (h : Reach s live) : Inv s live := by
  induction h with
  | init h₀ h hs => exact Inv.init h₀ h hs
  | call _ hc hrun ih => exact ih.call hc hrun
  | write _ hfr ih => exact ih.write hfr

end Inv

instance (s : State) : Decidable (Fresh s) :=
  inferInstanceAs (Decidable (_ ∧ _ ∧ _ ∧ _))

/-- `mm_init` on a fresh state, when it lays out a heap. -/
def boot (s₀ : State) : Option State :=
  if Fresh s₀ then
    match mmInit s₀ with
    | some (_, s) => if s.heapStart ≠ 0 then some s else none
    | none => none
  else none

/-- The calls `cs` from `s`, with the live pointers `live`. -/
def runTrace : List Call → State → List Nat → Option (State × List Nat)
  | [], s, live => some (s, live)
  | c :: cs, s, live =>
    if c.Ok live then
      match c.run s with
      | some (q, s') => runTrace cs s' (c.live q live)
      | none => none
    else none

/-- A state before `mm_init` with the heap at `lo`: zeroed memory, and a `mem_sbrk` that
grants every request. -/
def fresh (lo : Nat) : State := ⟨fun _ => 0, ⟨lo, lo, fun _ => true, 0⟩, 0, fun _ => 0, 0⟩

theorem Reach.boot {s₀ s : State} (h : boot s₀ = some s) : Reach s [] := by
  unfold SegAlloc.Trace.boot at h
  split_ifs at h with h₀
  split at h
  · split_ifs at h with hs
    cases h
    exact .init h₀ (by assumption) hs
  · cases h

/-- The state `boot` lays out holds the abstract `mm_init` heap, with no allocation. -/
theorem boot_rep {s₀ s : State} (h : boot s₀ = some s) :
    Rep s (View.mmInit s₀.lib) ∧ WF (View.mmInit s₀.lib) ∧ Tracks (View.mmInit s₀.lib) [] := by
  unfold SegAlloc.Trace.boot at h
  split_ifs at h with h₀
  obtain ⟨ok, s', hinit, -, -, hrep⟩ := mmInit_rep h₀
  simp only [hinit, ne_eq, ite_not, Option.ite_none_left_eq_some] at h
  obtain ⟨hs, ⟨⟩⟩ := h
  obtain ⟨hR, hW, hnone, -⟩ := hrep hs
  exact ⟨hR, hW, List.nodup_nil, fun p => by simp [hnone]⟩

theorem Reach.run_trace : ∀ {cs : List Call} {s s' : State} {live live' : List Nat},
    Reach s live → runTrace cs s live = some (s', live') → Reach s' live'
  | [], _, _, _, _, h, hr => by cases hr; exact h
  | c :: cs, s, _, live, _, h, hr => by
    unfold runTrace at hr
    split_ifs at hr with hc
    split at hr
    · exact Reach.run_trace (h.call hc (by assumption)) hr
    · cases hr

/-- The calls `cs` on the decoded heap `H`, with the live pointers `live`. -/
def runView : List Call → Heap → List Nat → Option (Heap × List Nat)
  | [], H, live => some (H, live)
  | c :: cs, H, live =>
    if c.Ok live then runView cs (c.apply H).2 (c.live (c.apply H).1 live) else none

/-- The driver refines the driver on decoded heaps. From a state holding `H`, a trace
that the abstract driver runs to `H'` runs on the bytes to a state holding `H'`, with the
same live pointers. -/
theorem runTrace_rep : ∀ {cs : List Call} {s : State} {H H' : Heap} {live live' : List Nat},
    Rep s H → WF H → Tracks H live → runView cs H live = some (H', live') →
    ∃ s', runTrace cs s live = some (s', live') ∧ Rep s' H' ∧ WF H' ∧ Tracks H' live'
  | [], s, _, _, _, _, hR, hW, hT, hv => by cases hv; exact ⟨s, rfl, hR, hW, hT⟩
  | c :: cs, s, H, _, live, _, hR, hW, hT, hv => by
    unfold runView at hv
    split_ifs at hv with hc
    obtain ⟨s₁, hrun, hR₁, -⟩ := Call.run_rep hR hW hT hc
    obtain ⟨hW₁, hT₁⟩ := Call.apply_wf hR hW hT hc
    obtain ⟨s', hr, h'⟩ := runTrace_rep hR₁ hW₁ hT₁ hv
    refine ⟨s', ?_, h'⟩
    rw [runTrace, if_pos hc, hrun]
    exact hr

/-- A call's result that returns `q` is `q` with the state it carries. -/
theorem eq_some_of_fst {o : Option (Nat × State)} {q : Nat} (d : Nat × State)
    (h : o.map Prod.fst = some q) : o = some (q, (o.getD d).2) := by
  cases o with
  | none => cases h
  | some r => rw [Option.map_some'] at h; cases h; rfl

/-- The state and the live pointers after the driver boots `fresh 4096` and replays `cs`
(the fresh state if a step fails). -/
def replayed (cs : List Call) : State × List Nat :=
  ((boot (fresh 4096)).bind fun s => runTrace cs s []).getD (fresh 4096, [])

/-- The heap and the live pointers after the abstract driver runs `cs` from `mm_init`. -/
def viewed (cs : List Call) : Heap × List Nat :=
  (runView cs (View.mmInit (fresh 4096).lib) []).getD (View.mmInit (fresh 4096).lib, [])

/-- A replayed trace is reachable when the abstract driver accepts it, and the state
holds the heap that driver computes. -/
theorem reach_replayed (cs : List Call)
    (h : (runView cs (View.mmInit (fresh 4096).lib) []).isSome) :
    Reach (replayed cs).1 (replayed cs).2 ∧ Rep (replayed cs).1 (viewed cs).1 ∧
      WF (viewed cs).1 ∧ Tracks (viewed cs).1 (replayed cs).2 ∧ (replayed cs).2 = (viewed cs).2 := by
  obtain ⟨s₀, hb⟩ := Option.isSome_iff_exists.1 (show (boot (fresh 4096)).isSome by decide)
  obtain ⟨hR, hW, hT⟩ := boot_rep hb
  obtain ⟨⟨H, live⟩, hv⟩ := Option.isSome_iff_exists.1 h
  obtain ⟨s, hr, hR', hW', hT'⟩ := runTrace_rep hR hW hT hv
  have e : replayed cs = (s, live) := by rw [replayed, hb, Option.some_bind, hr]; rfl
  have e' : viewed cs = (H, live) := by simp only [viewed, hv]; rfl
  rw [e, e']
  exact ⟨(Reach.boot hb).run_trace hr, hR', hW', hT', rfl⟩

end SegAlloc.Trace
