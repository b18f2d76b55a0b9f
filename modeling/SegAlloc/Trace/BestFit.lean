import SegAlloc.Trace.Walk

/-!
# The bounded best-fit of a bucket

The spec describes the search of a bucket as a bounded best-fit: scan the bucket in
list order, keep the smallest fitting block seen so far, and stop at the first fitting
block larger than it. `boundedFit` is that rule, with a flag for what a fitting block of
the same size as the best does: the spec's text lets it pass, and `find_fit` stops on it,
as it stops on every fitting block that is not strictly smaller
(`bucketFit_eq_boundedFit`). The two rules choose the same block on a bucket whose fitting
blocks have distinct sizes (`boundedFit_stop_irrel`), and `find_fit` returns the choice of
its own rule on the bucket it takes its result from (`Reach.findFit_bounded`). On a bucket
of sizes `48, 48, 32` the rules differ (`findFit_stops_on_equal`).
-/

namespace SegAlloc.Trace

open SegAlloc.Machine SegAlloc.Model SegAlloc.View SegAlloc.Refine

/-- The spec's bounded best-fit over the bucket `l` from the candidate `best` (`0` for none):
stop at the first fitting block larger than the best, or with `stopOnEqual` of equal size. -/
def boundedFit (stopOnEqual : Bool) (free : Nat → Bool) (size : Nat → Nat) (asize : Nat) :
    List Nat → Nat → Nat
  | [], best => best
  | x :: l, best =>
    if free x && asize ≤ size x then
      if best = 0 then boundedFit stopOnEqual free size asize l x
      else if size x < size best then boundedFit stopOnEqual free size asize l x
      else if stopOnEqual || size best < size x then best
      else boundedFit stopOnEqual free size asize l best
    else boundedFit stopOnEqual free size asize l best

/-- `find_fit`'s bucket loop is the bounded best-fit that stops on a block of equal
size. -/
theorem bucketFit_eq_boundedFit (H : Heap) (asize : Nat) : ∀ (l : List Nat) (best : Nat),
    View.bucketFit H asize l best = boundedFit true (fun x => !H.allocAt x) H.sizeAt asize l best
  | [], _ => rfl
  | x :: l, best => by
    simp only [View.bucketFit, boundedFit, Bool.true_or, ↓reduceIte,
      bucketFit_eq_boundedFit H asize l]

/-- The rule reads the free test and the sizes only on the bucket's nodes and on a
starting candidate. -/
theorem boundedFit_congr {e : Bool} {f f' : Nat → Bool} {g g' : Nat → Nat} {asize : Nat} :
    ∀ {l : List Nat} {best : Nat}, (∀ x ∈ l, f x = f' x ∧ g x = g' x) →
      (best ≠ 0 → g best = g' best) →
      boundedFit e f g asize l best = boundedFit e f' g' asize l best
  | [], _, _, _ => rfl
  | x :: l, best, hl, hb => by
    obtain ⟨hf, hg⟩ := hl x (List.mem_cons_self _ _)
    have ih : ∀ {b : Nat}, (b ≠ 0 → g b = g' b) →
        boundedFit e f g asize l b = boundedFit e f' g' asize l b :=
      fun h => boundedFit_congr (fun y hy => hl y (List.mem_cons_of_mem _ hy)) h
    by_cases h0 : best = 0
    · simp only [boundedFit, hf, hg, h0, ↓reduceIte, ih fun _ => hg,
        ih (b := 0) fun h => absurd rfl h]
    · simp only [boundedFit, hf, hg, h0, ↓reduceIte, hb h0, ih fun _ => hg, ih hb]

/-- The stopping rule matters only on equal sizes. When no fitting block of the bucket
has the size of another, nor of the candidate, the two rules choose the same block. -/
theorem boundedFit_stop_irrel {f : Nat → Bool} {g : Nat → Nat} {asize : Nat} :
    ∀ {l : List Nat} {best : Nat},
      ((l.filter fun x => f x && asize ≤ g x).map g).Nodup →
      (best ≠ 0 → ∀ x ∈ l, (f x && asize ≤ g x) = true → g x ≠ g best) →
      boundedFit true f g asize l best = boundedFit false f g asize l best
  | [], _, _, _ => rfl
  | x :: l, best, hnd, hb => by
    have hb' : best ≠ 0 → ∀ y ∈ l, (f y && asize ≤ g y) = true → g y ≠ g best :=
      fun h y hy => hb h y (List.mem_cons_of_mem _ hy)
    by_cases hx : (f x && asize ≤ g x) = true
    · simp only [List.filter_cons, hx, ↓reduceIte, List.map_cons, List.nodup_cons] at hnd
      -- a later fitting block does not have `x`'s size
      have hx' : x ≠ 0 → ∀ y ∈ l, (f y && asize ≤ g y) = true → g y ≠ g x :=
        fun _ y hy hfy h => hnd.1 (List.mem_map.2 ⟨y, List.mem_filter.2 ⟨hy, hfy⟩, h⟩)
      by_cases h0 : best = 0
      · simp only [boundedFit, hx, h0, ↓reduceIte]
        exact boundedFit_stop_irrel hnd.2 hx'
      by_cases hlt : g x < g best
      · simp only [boundedFit, hx, h0, hlt, ↓reduceIte]
        exact boundedFit_stop_irrel hnd.2 hx'
      · have hgt : g best < g x := by
          have := hb h0 x (List.mem_cons_self _ _) hx
          omega
        simp only [boundedFit, hx, h0, hlt, hgt, ↓reduceIte, Bool.true_or, Bool.false_or,
          decide_True]
    · simp only [List.filter_cons, hx, Bool.false_eq_true, ↓reduceIte] at hnd
      simp only [boundedFit, hx, Bool.false_eq_true, ↓reduceIte]
      exact boundedFit_stop_irrel hnd hb'

/-- `find_fit` takes its block from the lowest bucket from `find_class(asize)` that fits, by
the bounded best-fit that stops on equal sizes, which is the spec's rule on distinct sizes. -/
theorem Reach.findFit_bounded {s : State} {live : List Nat} (h : Reach s live) {asize b : Nat}
    (hm : ¬(asize = minBlockSize ∧ s.miniList ≠ 0)) (hb : Model.findFit s asize = some b)
    (hb0 : b ≠ 0) :
    ∃ i l, findClass asize ≤ i ∧ i < LENGTH ∧ segWalk s i = some l ∧
      (∀ j, findClass asize ≤ j → j < i → ∀ l' ∈ segWalk s j, ∀ x ∈ l',
        getAlloc s x = false → getSize s x < asize) ∧
      b = boundedFit true (fun x => !getAlloc s x) (getSize s) asize l 0 ∧
      (((l.filter fun x => !getAlloc s x && asize ≤ getSize s x).map (getSize s)).Nodup →
        b = boundedFit false (fun x => !getAlloc s x) (getSize s) asize l 0) := by
  obtain ⟨H, hR, hW, -⟩ := h.inv
  have hL := hW.lists
  have hmini : s.miniList ≠ 0 ↔ H.mini ≠ [] := by
    rw [hR.miniHead, ne_eq, headD_eq_zero fun x hx => (hR.listed_bounds hL (.inl hx)).1]
  rw [findFit_eq hR hL, Option.some.injEq, View.findFit,
    if_neg fun h' => hm ⟨h'.1, hmini.2 h'.2⟩] at hb
  obtain ⟨i, h1, h2, h3, h4⟩ := classFit_spec (hW.seg_ne_zero hR.lo_pos) (hb ▸ hb0)
  have hi : i < LENGTH := by have := findClass_lt asize; omega
  -- the bucket loop, read on the bytes
  have hcode : b = boundedFit true (fun x => !getAlloc s x) (getSize s) asize (H.seg i) 0 := by
    rw [← hb, h3, bucketFit_eq_boundedFit]
    refine boundedFit_congr (fun x hx => ?_) fun h => absurd rfl h
    obtain ⟨-, ha, hs⟩ := hR.seg_agrees hL hx
    rw [ha, hs]
    exact ⟨rfl, rfl⟩
  refine ⟨i, _, h1, hi, segWalk_eq hR hL hi, fun j hj hji l' hl' x hx hxf => ?_, hcode,
    fun hnd => hcode.trans (boundedFit_stop_irrel hnd fun h => absurd rfl h)⟩
  -- the buckets below hold no fitting block
  rw [segWalk_eq hR hL (by omega), Option.mem_some_iff] at hl'
  subst hl'
  obtain ⟨-, hxa, hxs⟩ := hR.seg_agrees hL hx
  rw [hxa] at hxf
  rw [hxs]
  exact Nat.lt_of_not_le fun hle => h4 j hj hji x hx ⟨hxf, hle⟩

/-- `find_fit(32)` after the first of two 32-byte allocations was freed. -/
theorem findFit_bounded_replayed :
    let s := (replayed [.malloc 24, .malloc 24, .free 4112]).1
    ∃ i l, findClass 32 ≤ i ∧ i < LENGTH ∧ segWalk s i = some l ∧
      (∀ j, findClass 32 ≤ j → j < i → ∀ l' ∈ segWalk s j, ∀ x ∈ l',
        getAlloc s x = false → getSize s x < 32) ∧
      4104 = boundedFit true (fun x => !getAlloc s x) (getSize s) 32 l 0 ∧
      (((l.filter fun x => !getAlloc s x && 32 ≤ getSize s x).map (getSize s)).Nodup →
        4104 = boundedFit false (fun x => !getAlloc s x) (getSize s) 32 l 0) :=
  have h := reach_replayed [.malloc 24, .malloc 24, .free 4112] (by decide)
  Reach.findFit_bounded h.1 (by decide) ((findFit_eq h.2.1 h.2.2.1.lists 32).trans (by decide))
    (by decide)

/-- A reachable state whose bucket 1 holds free blocks of 48, 48 and 32 bytes, in this
order: `find_fit(32)` stops at the second block of 48 bytes and returns the first, where the
spec's rule goes on to the block of 32 bytes. -/
theorem findFit_stops_on_equal : ∃ s live, Reach s live ∧ ∃ l b, segWalk s 1 = some l ∧
    Model.findFit s 32 = some b ∧ b ∈ l ∧
      getSize s b ≠ getSize s (boundedFit false (fun x => !getAlloc s x) (getSize s) 32 l 0) := by
  obtain ⟨hr, hR, hW, -, -⟩ := reach_replayed [.malloc 24, .malloc 24, .malloc 40, .malloc 24,
    .malloc 40, .malloc 24, .free 4112, .free 4176, .free 4256] (by decide)
  set s := (replayed [.malloc 24, .malloc 24, .malloc 40, .malloc 24, .malloc 40, .malloc 24,
    .free 4112, .free 4176, .free 4256]).1
  set H := (viewed [.malloc 24, .malloc 24, .malloc 40, .malloc 24, .malloc 40, .malloc 24,
    .free 4112, .free 4176, .free 4256]).1
  have hseg : H.seg 1 = [4248, 4168, 4104] := by decide
  have hag : ∀ x ∈ H.seg 1, (!getAlloc s x) = (!H.allocAt x) ∧ getSize s x = H.sizeAt x :=
    fun x hx => by
      obtain ⟨-, ha, hs⟩ := hR.seg_agrees hW.lists hx
      rw [ha, hs]
      exact ⟨rfl, rfl⟩
  have hspec : boundedFit false (fun x => !getAlloc s x) (getSize s) 32 (H.seg 1) 0 = 4104 := by
    rw [boundedFit_congr hag fun h => absurd rfl h, hseg]
    decide
  refine ⟨_, _, hr, _, 4248, segWalk_eq hR hW.lists (by decide),
    (findFit_eq hR hW.lists 32).trans (by decide), by rw [hseg]; simp, ?_⟩
  rw [hspec, (hag 4248 (by rw [hseg]; simp)).2, (hag 4104 (by rw [hseg]; simp)).2]
  decide

end SegAlloc.Trace
