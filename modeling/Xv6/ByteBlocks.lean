import Mathlib.Data.BitVec
import Mathlib.Data.List.Basic

/-!
# Blocks of bytes

Byte sequences read and written in place, and 32-bit little-endian words in them.
-/

namespace Xv6.ByteBlocks

abbrev Byte := BitVec 8

instance : LawfulBEq Byte := inferInstance

abbrev Block := ℕ → Byte

def zeros : Block := fun _ => 0

/-- Word `j` of a block that holds an array of 32-bit words. -/
def word (x : Block) (j : ℕ) : ℕ :=
  (x (4 * j)).toNat + 2 ^ 8 * (x (4 * j + 1)).toNat + 2 ^ 16 * (x (4 * j + 2)).toNat +
    2 ^ 24 * (x (4 * j + 3)).toNat

def setWord (x : Block) (j w : ℕ) : Block := fun i =>
  if i / 4 = j then BitVec.ofNat 8 (w / 2 ^ (8 * (i % 4))) else x i

@[simp] theorem word_zeros (j : ℕ) : word zeros j = 0 := by simp [word, zeros]

theorem word_setWord_self (x : Block) {j w : ℕ} (hw : w < 2 ^ 32) : word (setWord x j w) j = w := by
  have h0 : 4 * j / 4 = j ∧ 4 * j % 4 = 0 := by omega
  have h1 : (4 * j + 1) / 4 = j ∧ (4 * j + 1) % 4 = 1 := by omega
  have h2 : (4 * j + 2) / 4 = j ∧ (4 * j + 2) % 4 = 2 := by omega
  have h3 : (4 * j + 3) / 4 = j ∧ (4 * j + 3) % 4 = 3 := by omega
  simp only [word, setWord, h0, h1, h2, h3, if_true, BitVec.toNat_ofNat]
  omega

theorem word_setWord_ne (x : Block) {j k w : ℕ} (hne : k ≠ j) : word (setWord x j w) k = word x k := by
  have h0 : 4 * k / 4 ≠ j := by omega
  have h1 : (4 * k + 1) / 4 ≠ j := by omega
  have h2 : (4 * k + 2) / 4 ≠ j := by omega
  have h3 : (4 * k + 3) / 4 ≠ j := by omega
  simp only [word, setWord, if_neg h0, if_neg h1, if_neg h2, if_neg h3]

/-- `bs` copied into a block at offset `o`. -/
def splice (x : Block) (o : ℕ) (bs : List Byte) : Block := fun i =>
  if o ≤ i ∧ i < o + bs.length then bs.getD (i - o) 0 else x i

/-- The `m` bytes of a block from offset `o` on. -/
def slice (x : Block) (o m : ℕ) : List Byte := (List.range m).map (fun i => x (o + i))

@[simp] theorem length_slice (x : Block) (o m : ℕ) : (slice x o m).length = m := by simp [slice]

end Xv6.ByteBlocks
