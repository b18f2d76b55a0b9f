import SegAlloc.View.Inv

/-!
# The fit search

`find_class` is monotone (`findClass_mono`), so a free block that fits a request
sits in the request's class or above it. With every free block listed, the
bucket loop finds a fitting block of a bucket whenever the bucket holds one
(`bucketFit_eq_zero`, `bucketFit_fits`), the class loop finds the lowest such
bucket (`classFit_spec`), and `find_fit` returns `NULL` exactly when no free
block fits (`findFit_spec`).
-/

namespace SegAlloc.View

open SegAlloc.Machine SegAlloc.Model

/-- The class of `a` over class bounds `ts`: the number of bounds passed before the first
bound above `a`. -/
def classFrom : List Nat → Nat → Nat
  | [], _ => 0
  | t :: ts, a => if a < t then 0 else classFrom ts a + 1

/-- The lower bounds of classes 1 to 13 of `find_class`. -/
def classBounds : List Nat :=
  [32, 64, 128, 256, 512, 1024, 2048, 3072, 4096, 6656, 8192, 16384, 32768]

theorem ite_classFrom {a t k X : Nat} {ts : List Nat}
    (h : ¬a < t → X = classFrom ts a + (k + 1)) :
    (if a < t then k else X) = classFrom (t :: ts) a + k := by
  by_cases ha : a < t
  · simp [classFrom, ha]
  · rw [if_neg ha, h ha, classFrom, if_neg ha]; omega

theorem findClass_eq_classFrom (a : Nat) : findClass a = classFrom classBounds a + 0 := by
  unfold findClass classBounds
  repeat (apply ite_classFrom; intro _)
  rfl

theorem classFrom_mono {a b : Nat} (h : a ≤ b) : ∀ ts, classFrom ts a ≤ classFrom ts b
  | [] => le_rfl
  | t :: ts => by
    simp only [classFrom]
    split_ifs with h1 h2
    · exact Nat.zero_le _
    · exact Nat.zero_le _
    · omega
    · exact Nat.succ_le_succ (classFrom_mono h ts)

/-- `find_class` is monotone. -/
theorem findClass_mono {a b : Nat} (h : a ≤ b) : findClass a ≤ findClass b := by
  rw [findClass_eq_classFrom, findClass_eq_classFrom]
  exact Nat.add_le_add_right (classFrom_mono h _) 0

/-- Class 0 holds sizes below 32 only. -/
theorem lt_of_findClass_eq_zero {a : Nat} (h : findClass a = 0) : a < 32 := by
  by_contra ha
  rw [findClass_eq_classFrom, classBounds, classFrom, if_neg ha] at h
  omega

/-- The block at `x` is free and holds `asize` bytes: the test of the bucket loop. -/
def Heap.Fits (H : Heap) (asize x : Nat) : Prop := H.allocAt x = false ∧ asize ≤ H.sizeAt x

section Lookup

variable {H : Heap} (hlay : Layout H)
include hlay

theorem Heap.blockAt_eq {X : Blk} (hX : X ∈ H.blocks) : H.blockAt X.addr = some X := by
  unfold Heap.blockAt
  cases hY : H.blocks.find? (·.addr == X.addr) with
  | none => exact absurd (beq_self_eq_true _) (List.find?_eq_none.1 hY X hX)
  | some Y =>
    have hYa : Y.addr = X.addr := by simpa using List.find?_some hY
    rw [hlay.eq_of_addr (List.mem_of_find?_eq_some hY) hX hYa]

theorem Heap.allocAt_eq {X : Blk} (hX : X ∈ H.blocks) : H.allocAt X.addr = X.alloc := by
  rw [Heap.allocAt, Heap.blockAt_eq hlay hX]; rfl

theorem Heap.sizeAt_eq {X : Blk} (hX : X ∈ H.blocks) : H.sizeAt X.addr = X.size := by
  rw [Heap.sizeAt, Heap.blockAt_eq hlay hX]; rfl

theorem Heap.fits_iff {X : Blk} (hX : X ∈ H.blocks) {asize : Nat} :
    H.Fits asize X.addr ↔ X.alloc = false ∧ asize ≤ X.size := by
  rw [Heap.Fits, Heap.allocAt_eq hlay hX, Heap.sizeAt_eq hlay hX]

end Lookup

section Loops

variable {H : Heap} {asize : Nat}

/-- The bucket loop returns `NULL` exactly when it starts without a candidate and no block
of the bucket fits. -/
theorem bucketFit_eq_zero {best : Nat} :
    ∀ {l : List Nat}, (∀ x ∈ l, x ≠ 0) →
      (bucketFit H asize l best = 0 ↔ best = 0 ∧ ∀ x ∈ l, ¬H.Fits asize x)
  | [], _ => by simp [bucketFit]
  | x :: l, hl => by
    have hx : x ≠ 0 := hl x (List.mem_cons_self _ _)
    have hl' : ∀ y ∈ l, y ≠ 0 := fun y hy => hl y (List.mem_cons_of_mem _ hy)
    by_cases hf : H.Fits asize x
    · have hf' : (!H.allocAt x && decide (asize ≤ H.sizeAt x)) = true := by
        simp [hf.1, hf.2]
      refine iff_of_false ?_ fun h => h.2 x (List.mem_cons_self _ _) hf
      simp only [bucketFit, hf', ↓reduceIte]
      split_ifs with hb
      · exact fun h => hx ((bucketFit_eq_zero hl').1 h).1
      · exact fun h => hx ((bucketFit_eq_zero hl').1 h).1
      · exact hb
    · have hf' : (!H.allocAt x && decide (asize ≤ H.sizeAt x)) = false := by
        simp only [Heap.Fits, not_and] at hf
        cases h : H.allocAt x <;> simp_all
      simp only [bucketFit, hf', Bool.false_eq_true, ↓reduceIte, List.mem_cons, forall_eq_or_imp,
        hf, not_false_eq_true, true_and]
      exact bucketFit_eq_zero hl'

/-- A candidate the bucket loop returns fits, and it is the starting candidate or a block of
the bucket. -/
theorem bucketFit_fits {best : Nat} :
    ∀ {l : List Nat}, (best = 0 ∨ H.Fits asize best) → bucketFit H asize l best ≠ 0 →
      H.Fits asize (bucketFit H asize l best) ∧
        (bucketFit H asize l best = best ∨ bucketFit H asize l best ∈ l)
  | [], hb, h => ⟨hb.resolve_left h, .inl rfl⟩
  | x :: l, hb, h => by
    by_cases hf : H.Fits asize x
    · have hf' : (!H.allocAt x && decide (asize ≤ H.sizeAt x)) = true := by
        simp [hf.1, hf.2]
      simp only [bucketFit, hf', ↓reduceIte] at h ⊢
      split_ifs at h ⊢ with h1 h2
      · obtain ⟨h3, h4⟩ := bucketFit_fits (.inr hf) h
        exact ⟨h3, .inr (h4.elim (fun e => by rw [e]; exact List.mem_cons_self _ _)
          (List.mem_cons_of_mem _))⟩
      · obtain ⟨h3, h4⟩ := bucketFit_fits (.inr hf) h
        exact ⟨h3, .inr (h4.elim (fun e => by rw [e]; exact List.mem_cons_self _ _)
          (List.mem_cons_of_mem _))⟩
      · exact ⟨hb.resolve_left h1, .inl rfl⟩
    · have hf' : (!H.allocAt x && decide (asize ≤ H.sizeAt x)) = false := by
        simp only [Heap.Fits, not_and] at hf
        cases h : H.allocAt x <;> simp_all
      simp only [bucketFit, hf', Bool.false_eq_true, ↓reduceIte] at h ⊢
      obtain ⟨h3, h4⟩ := bucketFit_fits hb h
      exact ⟨h3, h4.imp_right (List.mem_cons_of_mem _)⟩

variable (hz : ∀ j, ∀ x ∈ H.seg j, x ≠ 0)
include hz

/-- The class loop over `n` buckets from `i` returns `NULL` exactly when none of their
blocks fits. -/
theorem classFit_eq_zero : ∀ {n i : Nat},
    classFit H asize n i = 0 ↔ ∀ j, i ≤ j → j < i + n → ∀ x ∈ H.seg j, ¬H.Fits asize x
  | 0, i => by simp only [classFit, true_iff]; intro j h1 h2; omega
  | n + 1, i => by
    simp only [classFit]
    split_ifs with h
    · refine iff_of_false h fun hall => h ((bucketFit_eq_zero (hz i)).2 ⟨rfl, hall i le_rfl
        (by omega)⟩)
    · rw [classFit_eq_zero]
      have h0 := (bucketFit_eq_zero (hz i)).1 (not_not.1 h)
      constructor
      · intro hall j h1 h2
        rcases Nat.eq_or_lt_of_le h1 with rfl | h1
        · exact h0.2
        · exact hall j h1 (by omega)
      · intro hall j h1 h2
        exact hall j (by omega) (by omega)

/-- A block the class loop returns comes from the lowest of its buckets that holds a fitting
block, as that bucket's loop returns it. -/
theorem classFit_spec : ∀ {n i : Nat}, classFit H asize n i ≠ 0 →
    ∃ j, i ≤ j ∧ j < i + n ∧ classFit H asize n i = bucketFit H asize (H.seg j) 0 ∧
      ∀ j', i ≤ j' → j' < j → ∀ x ∈ H.seg j', ¬H.Fits asize x
  | 0, i, h => absurd rfl h
  | n + 1, i, h => by
    simp only [classFit] at h ⊢
    split_ifs at h ⊢ with hb
    · exact ⟨i, le_rfl, by omega, rfl, fun j' h1 h2 => absurd h2 (by omega)⟩
    · obtain ⟨j, h1, h2, h3, h4⟩ := classFit_spec h
      have h0 := (bucketFit_eq_zero (hz i)).1 (not_not.1 hb)
      refine ⟨j, by omega, by omega, h3, fun j' h5 h6 => ?_⟩
      rcases Nat.eq_or_lt_of_le h5 with rfl | h5
      · exact h0.2
      · exact h4 j' h5 h6

end Loops

section FindFit

variable {H : Heap} (hW : WF H) (hlo : 0 < H.lib.lo)
include hW hlo

/-- The addresses on the lists are not `NULL`. -/
theorem WF.seg_ne_zero : ∀ j, ∀ x ∈ H.seg j, x ≠ 0 := fun j x hx => by
  obtain ⟨b, hb, rfl, -⟩ := hW.lists.seg j x hx
  have := (hW.layout.mem hb).1
  omega

/-- `find_fit` is sound: a block it returns is a free, listed block that holds `asize` bytes,
from the mini list or from the lowest bucket that fits. -/
theorem findFit_fits {asize : Nat} (h : findFit H asize ≠ 0) :
    ∃ X ∈ H.blocks, X.addr = findFit H asize ∧ X.alloc = false ∧ asize ≤ X.size ∧
      X.addr ∈ H.listFor X.size ∧
      (asize = minBlockSize ∧ H.mini ≠ [] → X.addr = H.mini.headD 0) ∧
      (¬(asize = minBlockSize ∧ H.mini ≠ []) → ∃ i, findClass asize ≤ i ∧ i < LENGTH ∧
        X.addr ∈ H.seg i ∧ ∀ j, findClass asize ≤ j → j < i →
          ∀ x ∈ H.seg j, ¬H.Fits asize x) := by
  have hz := WF.seg_ne_zero hW hlo
  unfold findFit at h ⊢
  split_ifs at h ⊢ with hm
  · obtain ⟨x, l, hxl⟩ := List.exists_cons_of_ne_nil hm.2
    obtain ⟨b, hb, rfl, hbf, hbs⟩ := hW.lists.mini x (by simp [hxl])
    refine ⟨b, hb, by simp [hxl], hbf, by rw [hbs, hm.1], ?_, fun _ => by simp [hxl],
      fun h => absurd hm h⟩
    simp [Heap.listFor, hbs, hxl]
  · obtain ⟨j, h1, h2, h3, h4⟩ := classFit_spec hz h
    rw [h3] at h ⊢
    obtain ⟨hfit, hmem⟩ := bucketFit_fits (.inl rfl) h
    have hmem := hmem.resolve_left h
    obtain ⟨b, hb, he, hbf, hbm, hbc⟩ := hW.lists.seg j _ hmem
    rw [← he] at hfit hmem ⊢
    refine ⟨b, hb, rfl, hbf, ((Heap.fits_iff hW.layout hb).1 hfit).2, ?_, fun h' => absurd h' hm,
      fun _ => ⟨j, h1, by rw [Nat.add_sub_cancel' (findClass_lt asize).le] at h2; exact h2, hmem,
        h4⟩⟩
    simp [Heap.listFor, hbm, hbc, hmem]

variable {asize : Nat} (h16 : 16 ≤ asize)
include h16

/-- `find_fit` is complete: it returns `NULL` exactly when no free block holds
`asize` bytes. -/
theorem findFit_eq_zero :
    findFit H asize = 0 ↔ ∀ X ∈ H.blocks, X.alloc = false → X.size < asize := by
  have hz := WF.seg_ne_zero hW hlo
  unfold findFit
  split_ifs with hm
  · -- the head of the mini list fits
    obtain ⟨x, l, hxl⟩ := List.exists_cons_of_ne_nil hm.2
    obtain ⟨b, hb, rfl, hbf, hbs⟩ := hW.lists.mini x (by simp [hxl])
    have := (hW.layout.mem hb).1
    rw [hxl, List.headD_cons]
    exact iff_of_false (by omega) fun h => absurd (h b hb hbf) (by rw [hbs, ← hm.1]; omega)
  · rw [classFit_eq_zero hz]
    constructor
    · intro hall X hX hXf
      by_contra hlt
      have hin := hW.listed X hX hXf
      unfold Heap.listFor at hin
      split_ifs at hin with hXm
      · exact hm ⟨by simp only [minBlockSize, dsize, wsize] at hXm ⊢; omega,
          List.ne_nil_of_mem hin⟩
      · have hc := findClass_mono (not_lt.1 hlt)
        exact hall _ hc (by have := findClass_lt X.size; omega) X.addr hin
          ((Heap.fits_iff hW.layout hX).2 ⟨hXf, not_lt.1 hlt⟩)
    · intro hall j _ _ x hx hfit
      obtain ⟨b, hb, rfl, -⟩ := hW.lists.seg j x hx
      obtain ⟨hbf, hbs⟩ := (Heap.fits_iff hW.layout hb).1 hfit
      exact absurd (hall b hb hbf) (not_lt.2 hbs)

end FindFit

end SegAlloc.View
