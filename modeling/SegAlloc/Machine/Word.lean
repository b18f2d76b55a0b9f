import Mathlib.Data.Nat.Bitwise
import Mathlib.Tactic.Ring

/-!
# Boundary words

Constants of `mm.c` and the codec of a boundary word (`pack_all`,
`extract_size`, the flag reads of `get_alloc`, `get_prev_alloc`,
`get_prev_mini`). All are translated with the source's bit operations on
`uint64_t`; `packAll_eq` turns a packed word into a sum, after which the
extraction lemmas are arithmetic. `size_t` arithmetic wraps modulo `2 ^ 64`,
which `roundUp` keeps: `size + (n - 1)` is computed in `size_t`.
-/

namespace SegAlloc.Machine

/-- `wsize`: word and header size in bytes. -/
def wsize : Nat := 8

/-- `dsize`: double word size in bytes. -/
def dsize : Nat := 2 * wsize

/-- `min_block_size`. -/
def minBlockSize : Nat := dsize

/-- `chunksize`: the least extension of the heap. -/
def chunksize : Nat := 2 ^ 12

/-- `LENGTH`: the number of buckets of `seg_list`. -/
def LENGTH : Nat := 14

def allocMask : Nat := 0x1
def prevAllocMask : Nat := 0x2
def prevMiniMask : Nat := 0x4

/-- `size_mask = ~(word_t)0xF`. -/
def sizeMask : Nat := 2 ^ 64 - 1 - 0xF

/-- `round_up(size, n)`, with the `size_t` sum `size + (n - 1)` wrapping. -/
def roundUp (size n : Nat) : Nat := n * ((size + (n - 1)) % 2 ^ 64 / n)

/-- `pack_all(size, alloc, prev_alloc, prev_mini)`. -/
def packAll (size : Nat) (alloc prevAlloc prevMini : Bool) : Nat :=
  let word := size
  let word := if alloc then word ||| allocMask else word
  let word := if prevAlloc then word ||| prevAllocMask else word
  if prevMini then word ||| prevMiniMask else word

/-- `extract_size(word)`. -/
def extractSize (word : Nat) : Nat := word &&& sizeMask

/-- `extract_alloc(word)`. -/
def extractAlloc (word : Nat) : Bool := (word &&& allocMask) != 0

/-- The flag read of `get_prev_alloc`: `(bool)((header & prev_alloc_mask) >> 1)`. -/
def extractPrevAlloc (word : Nat) : Bool := ((word &&& prevAllocMask) >>> 1) != 0

/-- The flag read of `get_prev_mini`: `(bool)((header & prev_mini_mask) >> 2)`. -/
def extractPrevMini (word : Nat) : Bool := ((word &&& prevMiniMask) >>> 2) != 0

/-- The low bits `pack_all` sets. -/
def flagBits (alloc prevAlloc prevMini : Bool) : Nat :=
  (if alloc then 1 else 0) + (if prevAlloc then 2 else 0) + (if prevMini then 4 else 0)

theorem flagBits_lt (a pa pm : Bool) : flagBits a pa pm < 8 := by
  cases a <;> cases pa <;> cases pm <;> decide

private theorem or_small {x f : Nat} (hx : x % 16 = 0) (hf : f < 16) : x ||| f = x + f := by
  have h := Nat.mul_add_lt_is_or (i := 4) (show f < 2 ^ 4 by omega) (x / 16)
  have hx' : 2 ^ 4 * (x / 16) = x := by omega
  rw [hx'] at h
  exact h.symm

/-- A packed word is the size plus its flag bits. -/
theorem packAll_eq {size : Nat} (a pa pm : Bool) (h : size % 16 = 0) :
    packAll size a pa pm = size + flagBits a pa pm := by
  cases a <;> cases pa <;> cases pm <;>
    simp only [packAll, flagBits, allocMask, prevAllocMask, prevMiniMask, Nat.lor_assoc,
      Bool.false_eq_true, ↓reduceIte, Nat.reduceOr] <;>
    first | exact or_small h (by decide) | simp

theorem extractSize_eq {w : Nat} (h : w < 2 ^ 64) : extractSize w = w / 16 * 16 := by
  apply Nat.eq_of_testBit_eq
  intro j
  have hM : sizeMask = 2 ^ 4 * (2 ^ 60 - 1) := by decide
  have hw : w / 16 * 16 = 2 ^ 4 * (w >>> 4) := by rw [Nat.shiftRight_eq_div_pow]; ring
  rw [extractSize, hM, hw, Nat.testBit_and, Nat.testBit_mul_pow_two, Nat.testBit_mul_pow_two,
    Nat.testBit_two_pow_sub_one, Nat.testBit_shiftRight]
  by_cases hj : 4 ≤ j
  · by_cases hj' : j < 64
    · simp [hj, hj', show j - 4 < 60 by omega, show 4 + (j - 4) = j by omega]
    · have hlt : w < 2 ^ j := lt_of_lt_of_le h (Nat.pow_le_pow_right (by omega) (by omega))
      simp [hj, show ¬ j - 4 < 60 by omega, show 4 + (j - 4) = j by omega,
        Nat.testBit_lt_two_pow hlt]
  · simp [hj]

theorem extractAlloc_eq (w : Nat) : extractAlloc w = (w % 2 == 1) := by
  rw [extractAlloc, allocMask, Nat.and_one_is_mod]
  cases Nat.mod_two_eq_zero_or_one w <;> simp [*]

theorem extractPrevAlloc_eq (w : Nat) : extractPrevAlloc w = (w / 2 % 2 == 1) := by
  rw [extractPrevAlloc, prevAllocMask, Nat.shiftRight_eq_div_pow, pow_one, Nat.and_div_two,
    show (2 : Nat) / 2 = 1 from rfl, Nat.and_one_is_mod]
  cases Nat.mod_two_eq_zero_or_one (w / 2) <;> simp [*]

theorem extractPrevMini_eq (w : Nat) : extractPrevMini w = (w / 4 % 2 == 1) := by
  rw [extractPrevMini, prevMiniMask, Nat.shiftRight_eq_div_pow,
    show 2 ^ 2 = 2 * 2 from rfl, ← Nat.div_div_eq_div_mul, Nat.and_div_two, Nat.and_div_two,
    show (4 : Nat) / 2 / 2 = 1 from rfl, Nat.and_one_is_mod, Nat.div_div_eq_div_mul]
  cases Nat.mod_two_eq_zero_or_one (w / 4) <;> simp [*]

section Packed

variable {size : Nat} (a pa pm : Bool)

theorem packAll_lt (h16 : size % 16 = 0) (hlt : size < 2 ^ 64) : packAll size a pa pm < 2 ^ 64 := by
  have := flagBits_lt a pa pm
  rw [packAll_eq a pa pm h16]
  omega

@[simp] theorem extractSize_packAll (h16 : size % 16 = 0) (hlt : size < 2 ^ 64) :
    extractSize (packAll size a pa pm) = size := by
  have := flagBits_lt a pa pm
  rw [extractSize_eq (packAll_lt a pa pm h16 hlt), packAll_eq a pa pm h16]
  omega

@[simp] theorem extractAlloc_packAll (h16 : size % 16 = 0) :
    extractAlloc (packAll size a pa pm) = a := by
  rw [extractAlloc_eq, packAll_eq a pa pm h16]
  cases a <;> cases pa <;> cases pm <;> simp [flagBits] <;> omega

@[simp] theorem extractPrevAlloc_packAll (h16 : size % 16 = 0) :
    extractPrevAlloc (packAll size a pa pm) = pa := by
  rw [extractPrevAlloc_eq, packAll_eq a pa pm h16]
  cases a <;> cases pa <;> cases pm <;> simp [flagBits] <;> omega

@[simp] theorem extractPrevMini_packAll (h16 : size % 16 = 0) :
    extractPrevMini (packAll size a pa pm) = pm := by
  rw [extractPrevMini_eq, packAll_eq a pa pm h16]
  cases a <;> cases pa <;> cases pm <;> simp [flagBits] <;> omega

/-- `write_prev_alloc(block, true)` sets the flag of a packed word. -/
theorem packAll_or_prevAllocMask :
    packAll size a pa pm ||| prevAllocMask = packAll size a true pm := by
  cases a <;> cases pa <;> cases pm <;>
    simp only [packAll, allocMask, prevAllocMask, prevMiniMask, Nat.lor_assoc,
      Bool.false_eq_true, ↓reduceIte, Nat.reduceOr]

end Packed

/-- Packed words of 16-aligned sizes below `2 ^ 64` determine their fields. -/
theorem packAll_inj {s s' : Nat} {a pa pm a' pa' pm' : Bool} (h16 : s % 16 = 0)
    (hlt : s < 2 ^ 64) (h16' : s' % 16 = 0) (hlt' : s' < 2 ^ 64)
    (h : packAll s a pa pm = packAll s' a' pa' pm') : s = s' ∧ a = a' ∧ pa = pa' ∧ pm = pm' := by
  refine ⟨?_, ?_, ?_, ?_⟩
  · rw [← extractSize_packAll a pa pm h16 hlt, h, extractSize_packAll _ _ _ h16' hlt']
  · rw [← extractAlloc_packAll a pa pm h16, h, extractAlloc_packAll _ _ _ h16']
  · rw [← extractPrevAlloc_packAll a pa pm h16, h, extractPrevAlloc_packAll _ _ _ h16']
  · rw [← extractPrevMini_packAll a pa pm h16, h, extractPrevMini_packAll _ _ _ h16']

/-- A flag read as a bit, weighted. -/
theorem ite_mod_two (x k : Nat) : (if (x % 2 == 1) = true then k else 0) = k * (x % 2) := by
  rcases Nat.mod_two_eq_zero_or_one x with h | h <;> simp [h]

/-- The boundary-word codec round-trips: the reads return what `pack_all` packed, and a word
is the `pack_all` of its own fields exactly when its unused bit 3 is clear. -/
theorem packAll_roundTrip :
    (∀ size a pa pm, size % 16 = 0 → size < 2 ^ 64 →
      extractSize (packAll size a pa pm) = size ∧ extractAlloc (packAll size a pa pm) = a ∧
        extractPrevAlloc (packAll size a pa pm) = pa ∧ extractPrevMini (packAll size a pa pm) = pm) ∧
    ∀ w < 2 ^ 64, packAll (extractSize w) (extractAlloc w) (extractPrevAlloc w)
      (extractPrevMini w) = w ↔ w / 8 % 2 = 0 := by
  refine ⟨fun size a pa pm h16 hlt => ⟨extractSize_packAll a pa pm h16 hlt,
    extractAlloc_packAll a pa pm h16, extractPrevAlloc_packAll a pa pm h16,
    extractPrevMini_packAll a pa pm h16⟩, fun w hw => ?_⟩
  -- the packed word is `w` with bit 3 cleared
  rw [packAll_eq _ _ _ (by rw [extractSize_eq hw]; omega), extractSize_eq hw, extractAlloc_eq,
    extractPrevAlloc_eq, extractPrevMini_eq]
  simp only [flagBits, ite_mod_two]
  omega

/-- `round_up(x, 16)` of a sum that does not wrap. -/
theorem roundUp_sixteen {x : Nat} (h : x + 15 < 2 ^ 64) : roundUp x 16 = (x + 15) / 16 * 16 := by
  rw [roundUp, Nat.mod_eq_of_lt (by omega), Nat.mul_comm]

/-- `round_up` keeps a multiple of 16 that fits a word. -/
theorem roundUp_of_mod {x : Nat} (hmod : x % 16 = 0) (hlt : x < 2 ^ 64) : roundUp x 16 = x := by
  rw [roundUp_sixteen (by omega)]
  omega

/-- `round_up(x, dsize)` is a multiple of 16 that fits a word, whatever `x`. -/
theorem roundUp_dsize (x : Nat) : roundUp x dsize % 16 = 0 ∧ roundUp x dsize < 2 ^ 64 := by
  have := Nat.mod_lt (x + (dsize - 1)) (Nat.two_pow_pos 64)
  simp only [roundUp, dsize, wsize] at this ⊢
  omega

end SegAlloc.Machine
