import SegAlloc.Refine.FreeList
import SegAlloc.View.Fit

/-!
# `find_fit` refines the abstract fit search

The bucket loop walks a bucket through `payload.next`; on a represented heap the
words it reads are the links of the bucket's list and the headers of its blocks,
so with more fuel than nodes it computes the abstract loop over that list
(`bucketFit_eq`). The class loop and `find_fit` follow (`classFit_eq`,
`findFit_eq`). `find_fit` writes nothing.
-/

namespace SegAlloc.Refine

open SegAlloc.Machine SegAlloc.Model SegAlloc.View

section Fit

variable {s : State} {H : Heap}

/-- The bucket loop. Walking a list linked through `payload.next`, whose nodes the
getters read as the heap does, with more fuel than nodes, computes the abstract loop. -/
theorem bucketFit_eq {asize : Nat} :
    ∀ {l : List Nat} {fuel best : Nat}, SegLinks s.mem l →
      (∀ x ∈ l, x ≠ 0 ∧ getAlloc s x = H.allocAt x ∧ getSize s x = H.sizeAt x) →
      (best ≠ 0 → getSize s best = H.sizeAt best) → l.length < fuel →
      Model.bucketFit s asize fuel (l.headD 0) best = some (View.bucketFit H asize l best)
  | _, 0, _, _, _, _, hlen => absurd hlen (Nat.not_lt_zero _)
  | [], fuel + 1, best, _, _, _, _ => by simp [Model.bucketFit, View.bucketFit]
  | x :: l, fuel + 1, best, hl, hag, hbest, hlen => by
    obtain ⟨hx0, ha, hsz⟩ := hag x (List.mem_cons_self _ _)
    have ih : ∀ {b : Nat}, (b ≠ 0 → getSize s b = H.sizeAt b) →
        Model.bucketFit s asize fuel (l.headD 0) b = some (View.bucketFit H asize l b) :=
      fun hb => bucketFit_eq hl.2.2 (fun y hy => hag y (List.mem_cons_of_mem _ hy)) hb
        (by simp only [List.length_cons] at hlen; omega)
    simp only [List.headD_cons, Model.bucketFit, hx0, ↓reduceIte, ha, hsz, hl.1, View.bucketFit]
    by_cases hc : (!H.allocAt x && decide (asize ≤ H.sizeAt x)) = true
    · simp only [hc, ↓reduceIte]
      by_cases hb : best = 0
      · simp only [hb, ↓reduceIte]; exact ih fun _ => hsz
      · simp only [hb, ↓reduceIte, hbest hb]
        split_ifs
        · exact ih fun _ => hsz
        · rfl
    · simp only [hc, Bool.false_eq_true, ↓reduceIte]
      exact ih hbest

variable (hR : Rep s H) (hL : Lists H)
include hR hL

/-- The getters agree with the heap on every node of a bucket. -/
theorem Rep.seg_agrees {i x : Nat} (hx : x ∈ H.seg i) :
    x ≠ 0 ∧ getAlloc s x = H.allocAt x ∧ getSize s x = H.sizeAt x := by
  obtain ⟨b, hb, rfl, -⟩ := hL.seg i x hx
  exact ⟨(hR.listed_bounds hL (.inr ⟨i, hx⟩)).1.ne', by rw [getAlloc_eq hR hb,
    Heap.allocAt_eq hR.layout hb], by rw [getSize_eq hR hb, Heap.sizeAt_eq hR.layout hb]⟩

/-- A bucket has fewer nodes than the loops have fuel. -/
theorem Rep.seg_length_lt (i : Nat) : (H.seg i).length < loopFuel s := by
  have hbrk : 0 < H.lib.brk := by
    obtain ⟨real, epi, -, -, -, -, h⟩ := hR.layout
    omega
  have := length_le_of_nodup (n := H.lib.brk - 15) (hL.segNodup i) fun x hx => by
    have := (hR.listed_bounds hL (.inr ⟨i, hx⟩)).2; omega
  rw [loopFuel, hR.lib]
  omega

/-- The class loop computes the abstract class loop over buckets below `LENGTH`. -/
theorem classFit_eq {asize : Nat} :
    ∀ {n i : Nat}, i + n ≤ LENGTH →
      Model.classFit s asize n i = some (View.classFit H asize n i)
  | 0, _, _ => rfl
  | n + 1, i, h => by
    have hb : Model.bucketFit s asize (loopFuel s) ((H.seg i).headD 0) 0 =
        some (View.bucketFit H asize (H.seg i) 0) :=
      bucketFit_eq (hR.segLinks i (by omega)) (fun x hx => hR.seg_agrees hL hx)
        (fun h => absurd rfl h) (hR.seg_length_lt hL i)
    rw [← hR.segHead i (by omega)] at hb
    simp only [Model.classFit, hb, View.classFit]
    split_ifs
    · rfl
    · exact classFit_eq (by omega)

/-- `find_fit` refines the abstract search, for every request size. -/
theorem findFit_eq (asize : Nat) : Model.findFit s asize = some (View.findFit H asize) := by
  have hmini : s.miniList ≠ 0 ↔ H.mini ≠ [] := by
    rw [hR.miniHead, ne_eq, headD_eq_zero fun x hx => (hR.listed_bounds hL (.inl hx)).1]
  unfold Model.findFit View.findFit
  by_cases hc : asize = minBlockSize ∧ H.mini ≠ []
  · rw [if_pos ⟨hc.1, hmini.2 hc.2⟩, if_pos hc, hR.miniHead]
  · rw [if_neg fun h => hc ⟨h.1, hmini.1 h.2⟩, if_neg hc]
    exact classFit_eq hR hL (by have := findClass_lt asize; omega)

end Fit

end SegAlloc.Refine
