import SegAlloc.Trace.Reach

/-!
# Failed requests

`malloc`, `calloc` and `realloc` with a size return `NULL` only for an empty request,
for a `calloc` whose product wraps, or when `mem_sbrk` refuses the request of
`extend_heap`. `find_fit` only reads, and `extend_heap` calls `mem_sbrk` before its first
write (`extendHeap_null`), so a failed request leaves the bytes, the heap bounds,
`heap_start` and the list heads as they were (`Reach.null_untouched`), and a failed
`realloc` keeps its allocation.
-/

namespace SegAlloc.Trace

open SegAlloc.Machine SegAlloc.Model SegAlloc.View SegAlloc.Refine

/-- `s'` has the bytes, the heap bounds, `heap_start` and the list heads of `s`: only the
bookkeeping of `mem_sbrk` may differ. -/
structure Untouched (s s' : State) : Prop where
  mem : s'.mem = s.mem
  lo : s'.lib.lo = s.lib.lo
  brk : s'.lib.brk = s.lib.brk
  heapStart : s'.heapStart = s.heapStart
  segList : s'.segList = s.segList
  miniList : s'.miniList = s.miniList

theorem Untouched.refl (s : State) : Untouched s s := ⟨rfl, rfl, rfl, rfl, rfl, rfl⟩

section Rep

variable {s s' : State} {H : Heap} (hR : Rep s H) (hW : WF H)
include hR hW

/-- `extend_heap` returning `NULL` leaves the state untouched. -/
theorem extendHeap_untouched {z : Nat} (h16 : 16 ≤ z) (hmod : z % 16 = 0) (hlt : z < 2 ^ 64)
    (h : extendHeap s z = some (0, s')) : Untouched s s' := by
  obtain ⟨rfl, hlo, hbrk⟩ := extendHeap_null hR hW h16 hmod hlt h
  exact ⟨rfl, hlo, hbrk, rfl, rfl, rfl⟩

/-- The body of `malloc` fails untouched, for every request: a `NULL` result comes from
an empty request, or from `extend_heap` after `find_fit` found nothing. -/
theorem mallocInit_null {n : Nat} (h : mallocInit s n = some (0, s')) : Untouched s s' := by
  unfold mallocInit at h
  dsimp only at h
  split_ifs at h with h0
  · cases h
    exact Untouched.refl s
  obtain ⟨hmod, hlt⟩ := roundUp_dsize ((n + wsize) % 2 ^ 64)
  generalize roundUp ((n + wsize) % 2 ^ 64) dsize = asize at h hmod hlt
  rw [findFit_eq hR hW.lists] at h
  by_cases hb : View.findFit H asize = 0
  · -- nothing fits: `extend_heap`
    simp only [hb, if_true] at h
    rcases he : extendHeap s (max asize chunksize) with _ | ⟨b, s₁⟩ <;> rw [he] at h
    · cases h
    · simp only at h
      split_ifs at h with hb0
      · cases h
        subst hb0
        exact extendHeap_untouched hR hW (le_max_right _ _ |>.trans' (by decide))
          (by rcases max_choice asize chunksize with e | e <;> rw [e] <;> simp [hmod, chunksize])
          (max_lt hlt (by decide)) he
      · obtain ⟨_, -, he'⟩ := Option.map_eq_some'.1 h
        cases he'
  · -- a free block fits: the result is its payload
    simp only [hb, if_false] at h
    obtain ⟨_, -, he'⟩ := Option.map_eq_some'.1 h
    cases he'

/-- `malloc` on an initialised heap fails untouched. -/
theorem malloc_null {n : Nat} (h : Model.malloc s n = some (0, s')) : Untouched s s' := by
  rw [Model.malloc, if_neg (by rw [hR.start]; omega)] at h
  exact mallocInit_null hR hW h

/-- `calloc` fails untouched: its own checks return before any call, and otherwise
`malloc` failed. -/
theorem calloc_null {k z : Nat} (h : Model.calloc s k z = some (0, s')) : Untouched s s' := by
  unfold Model.calloc at h
  dsimp only at h
  split_ifs at h with h0 h1
  · cases h
    exact Untouched.refl s
  · cases h
    exact Untouched.refl s
  rcases hm : Model.malloc s (k * z % 2 ^ 64) with _ | ⟨bp, s₁⟩ <;> rw [hm] at h
  · cases h
  · simp only at h
    split_ifs at h with hbp
    · cases h
      exact malloc_null hR hW (hbp ▸ hm)
    · cases h
      exact absurd rfl hbp

/-- `realloc` with a size fails untouched: a `NULL` result is `malloc`'s. -/
theorem realloc_null {p n : Nat} (hn : n ≠ 0) (h : Model.realloc s p n = some (0, s')) :
    Untouched s s' := by
  unfold Model.realloc at h
  rw [if_neg hn] at h
  split_ifs at h with hp
  · exact malloc_null hR hW h
  rcases hm : Model.malloc s n with _ | ⟨q, s₁⟩ <;> rw [hm] at h
  · cases h
  · simp only at h
    by_cases hq : q = 0
    · rw [if_pos hq] at h
      cases h
      exact malloc_null hR hW (hq ▸ hm)
    · rw [if_neg hq] at h
      obtain ⟨_, -, he'⟩ := Option.map_eq_some'.1 h
      cases he'
      exact absurd rfl hq

end Rep

/-- A `NULL` from `malloc`, `calloc` or `realloc` of a live `p` leaves the bytes, the heap
bounds and the list heads as they were, and `p` live. -/
theorem Reach.null_untouched {s : State} {live : List Nat} (h : Reach s live) :
    (∀ n s', Model.malloc s n = some (0, s') → Untouched s s') ∧
    (∀ k z s', Model.calloc s k z = some (0, s') → Untouched s s') ∧
    (∀ p n s', p ∈ live → 1 ≤ n → Model.realloc s p n = some (0, s') →
      Untouched s s' ∧ p ∈ (Call.realloc p n).live 0 live) := by
  obtain ⟨H, hR, hW, -⟩ := h.inv
  refine ⟨fun n s' => malloc_null hR hW, fun k z s' => calloc_null hR hW,
    fun p n s' hp hn hr => ⟨realloc_null hR hW (by omega) hr, ?_⟩⟩
  simpa [Call.live, show n ≠ 0 by omega] using hp

/-- On the first reachable state, `malloc(2 ^ 64 - 24)` asks `mem_sbrk` for more than the
address space, which it refuses: the result is `NULL` and the state untouched. -/
theorem null_untouched_replayed :
    ∃ s', Model.malloc (replayed []).1 (2 ^ 64 - 24) = some (0, s') ∧
      Untouched (replayed []).1 s' := by
  have h := reach_replayed [] (by decide)
  have hfst : ((Call.malloc (2 ^ 64 - 24)).run (replayed []).1).map Prod.fst = some 0 :=
    (Call.run_fst h.2.1 h.2.2.1 h.2.2.2.1 (by decide)).trans (by decide)
  have hrun := eq_some_of_fst (0, (replayed []).1) hfst
  exact ⟨_, hrun, (Reach.null_untouched h.1).1 _ _ hrun⟩

end SegAlloc.Trace
