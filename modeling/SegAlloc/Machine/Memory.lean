import Mathlib.Tactic.Ring

/-!
# Byte memory of the simulated heap

`memlib` hands the allocator one contiguous byte array; the allocator reads and
writes it as 64-bit little-endian words (`word_t`), the client and `realloc` /
`calloc` through `memcpy` and `memset`. `Mem` is that array over the whole
address space. A word write changes exactly its eight bytes (`writeWord_of_lt`,
`writeWord_of_ge`), so a word is read back as written (`readWord_writeWord_self`)
and any word whose bytes it misses is kept (`readWord_writeWord_of_disjoint`).
-/

namespace SegAlloc.Machine

/-- Byte-addressed memory. -/
abbrev Mem := Nat → UInt8

/-- Little-endian load of `k` bytes from `a`. -/
def loadLE (m : Mem) (a : Nat) : Nat → Nat
  | 0 => 0
  | k + 1 => (m a).toNat + 256 * loadLE m (a + 1) k

/-- The 64-bit word at `a`. -/
def readWord (m : Mem) (a : Nat) : Nat := loadLE m a 8

/-- Byte `i` of the little-endian encoding of `v`. -/
def byteOf (v i : Nat) : UInt8 := UInt8.ofNat (v / 256 ^ i % 256)

/-- Store the 64-bit word `v` at `a`. -/
def writeWord (m : Mem) (a v : Nat) : Mem :=
  fun b => if a ≤ b ∧ b < a + 8 then byteOf v (b - a) else m b

/-- `memcpy(dst, src, n)` for non-overlapping ranges. -/
def memcpy (m : Mem) (dst src n : Nat) : Mem :=
  fun b => if dst ≤ b ∧ b < dst + n then m (src + (b - dst)) else m b

/-- `memset(dst, c, n)`. -/
def memset (m : Mem) (dst : Nat) (c : UInt8) (n : Nat) : Mem :=
  fun b => if dst ≤ b ∧ b < dst + n then c else m b

/-- Two memories agree on the `n` bytes from `a`. -/
def SameOn (m m' : Mem) (a n : Nat) : Prop := ∀ i, i < n → m' (a + i) = m (a + i)

theorem writeWord_of_lt {m : Mem} {a v b : Nat} (h : b < a) : writeWord m a v b = m b := by
  simp only [writeWord]; rw [if_neg (by omega)]

theorem writeWord_of_ge {m : Mem} {a v b : Nat} (h : a + 8 ≤ b) : writeWord m a v b = m b := by
  simp only [writeWord]; rw [if_neg (by omega)]

theorem writeWord_of_not_mem {m : Mem} {a v b : Nat} (h : b < a ∨ a + 8 ≤ b) :
    writeWord m a v b = m b := by
  simp only [writeWord]; rw [if_neg (by omega)]

theorem loadLE_congr {m m' : Mem} {a : Nat} :
    ∀ {k : Nat}, SameOn m m' a k → loadLE m' a k = loadLE m a k
  | 0, _ => rfl
  | k + 1, h => by
    have h0 := h 0 (by omega)
    have ih : loadLE m' (a + 1) k = loadLE m (a + 1) k :=
      loadLE_congr fun i hi => by simpa only [Nat.add_assoc, Nat.add_comm 1 i] using h (i + 1) (by omega)
    simp only [loadLE, Nat.add_zero] at h0 ⊢
    rw [h0, ih]

theorem loadLE_lt (m : Mem) : ∀ (a k : Nat), loadLE m a k < 256 ^ k
  | _, 0 => by simp [loadLE]
  | a, k + 1 => by
    have h1 := UInt8.toNat_lt_size (m a)
    have h2 := loadLE_lt m (a + 1) k
    simp only [loadLE, UInt8.size, Nat.pow_succ] at h1 ⊢
    omega

/-- Bytes of `v` laid down from `a`, read back from offset `j`. -/
theorem loadLE_writeWord (m : Mem) (a v : Nat) :
    ∀ (k j : Nat), j + k ≤ 8 → loadLE (writeWord m a v) (a + j) k = v / 256 ^ j % 256 ^ k
  | 0, j, _ => by simp [loadLE, Nat.mod_one]
  | k + 1, j, h => by
    have ih := loadLE_writeWord m a v k (j + 1) (by omega)
    have hb : (writeWord m a v (a + j)).toNat = v / 256 ^ j % 256 := by
      simp only [writeWord, byteOf]
      rw [if_pos (by omega), Nat.add_sub_cancel_left]
      exact UInt8.toNat_ofNat_of_lt (Nat.mod_lt _ (by decide))
    rw [loadLE, hb, Nat.add_assoc, ih, show 256 ^ (k + 1) = 256 * 256 ^ k by ring, Nat.mod_mul,
      show 256 ^ (j + 1) = 256 ^ j * 256 by ring, Nat.div_div_eq_div_mul]

theorem readWord_lt (m : Mem) (a : Nat) : readWord m a < 2 ^ 64 := by
  have h := loadLE_lt m a 8
  simpa [readWord] using h

/-- A word is read back as written, modulo the word size. -/
theorem readWord_writeWord_self (m : Mem) (a v : Nat) :
    readWord (writeWord m a v) a = v % 2 ^ 64 := by
  have h := loadLE_writeWord m a v 8 0 (by omega)
  simpa [readWord] using h

theorem readWord_writeWord_of_lt {m : Mem} {a v : Nat} (h : v < 2 ^ 64) :
    readWord (writeWord m a v) a = v := by
  rw [readWord_writeWord_self, Nat.mod_eq_of_lt h]

theorem readWord_congr {m m' : Mem} {a : Nat} (h : SameOn m m' a 8) :
    readWord m' a = readWord m a := loadLE_congr h

/-- A word write keeps every word whose bytes it misses. -/
theorem readWord_writeWord_of_disjoint {m : Mem} {w v a : Nat} (h : w + 8 ≤ a ∨ a + 8 ≤ w) :
    readWord (writeWord m w v) a = readWord m a :=
  readWord_congr fun i _ => writeWord_of_not_mem (by omega)

theorem readWord_writeWord_of_ne {m : Mem} {w v a : Nat} (hw : w % 8 = 0) (ha : a % 8 = 0)
    (hne : w ≠ a) : readWord (writeWord m w v) a = readWord m a :=
  readWord_writeWord_of_disjoint (by omega)

theorem memcpy_of_not_mem {m : Mem} {dst src n b : Nat} (h : b < dst ∨ dst + n ≤ b) :
    memcpy m dst src n b = m b := by
  simp only [memcpy]; rw [if_neg (by omega)]

theorem memcpy_of_lt {m : Mem} {dst src n i : Nat} (h : i < n) :
    memcpy m dst src n (dst + i) = m (src + i) := by
  simp only [memcpy]; rw [if_pos (by omega), Nat.add_sub_cancel_left]

theorem memset_of_not_mem {m : Mem} {dst n b : Nat} {c : UInt8} (h : b < dst ∨ dst + n ≤ b) :
    memset m dst c n b = m b := by
  simp only [memset]; rw [if_neg (by omega)]

theorem memset_of_lt {m : Mem} {dst n i : Nat} {c : UInt8} (h : i < n) :
    memset m dst c n (dst + i) = c := by
  simp only [memset]; rw [if_pos (by omega)]

end SegAlloc.Machine
