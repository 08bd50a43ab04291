import Mathlib.Algebra.Group.Nat.Defs
import Mathlib.Tactic.Common

namespace Search

-- Nonempty intervals that lead from one position to another one without a gap.
def Tiles : ℕ → List (ℕ × ℕ) → ℕ → Prop
  | pos, [], stop                     => pos = stop
  | pos, (start, «end») :: rest, stop => start = pos ∧ start < «end» ∧ Tiles «end» rest stop

-- A text cut into blocks of one size. A block owns the positions in it, and is searched together
-- with some of the text that follows it.
structure Blocks where
  size      : ℕ
  block     : ℕ
  overlap   : ℕ
  block_pos : 0 < block

namespace Blocks

variable {L : Blocks} {b pos len : ℕ}

def count (L : Blocks) : ℕ :=
  (L.size + L.block - 1) / L.block

def start (L : Blocks) (b : ℕ) : ℕ :=
  b * L.block

def ownedEnd (L : Blocks) (b : ℕ) : ℕ :=
  min (L.start b + L.block) L.size

def readEnd (L : Blocks) (b : ℕ) : ℕ :=
  min (L.ownedEnd b + L.overlap) L.size

-- The block that owns the position also reads all of the `len` positions from there on.
def Covers (L : Blocks) (pos len : ℕ) : Prop :=
  pos % L.block + len ≤ L.block + L.overlap

instance : Decidable (L.Covers pos len) :=
  inferInstanceAs (Decidable (_ ≤ _))

theorem lt_count_iff : b < L.count ↔ L.start b < L.size := by
  have hp := L.block_pos
  rw [count, start, Nat.lt_iff_add_one_le, Nat.le_div_iff_mul_le hp, Nat.succ_mul]
  omega

-- The last block ends less than a block behind the text.
theorem count_mul_lt : L.count * L.block < L.size + L.block := by
  have hp := L.block_pos
  have hd := Nat.div_mul_le_self (L.size + L.block - 1) L.block
  simp only [count]
  omega

theorem count_le_one (h : L.size ≤ L.block) : L.count ≤ 1 := by
  have := L.count_mul_lt
  by_contra hc
  have hm : 2 * L.block ≤ L.count * L.block := Nat.mul_le_mul_right _ (by omega)
  omega

theorem start_le_ownedEnd (h : b < L.count) : L.start b ≤ L.ownedEnd b := by
  have := lt_count_iff.mp h
  simp only [ownedEnd]
  omega

theorem ownedEnd_le_readEnd : L.ownedEnd b ≤ L.readEnd b := by
  simp only [readEnd, ownedEnd]
  omega

theorem readEnd_le : L.readEnd b ≤ L.size :=
  Nat.min_le_right ..

-- Every position has one owner.
theorem owned_iff : L.start b ≤ pos ∧ pos < L.ownedEnd b ↔ pos < L.size ∧ pos / L.block = b := by
  rw [Nat.div_eq_iff L.block_pos, ownedEnd, start]
  have := L.block_pos
  omega

theorem div_lt_count (h : pos < L.size) : pos / L.block < L.count := by
  have ⟨hs, _⟩ := owned_iff.mpr ⟨h, rfl⟩
  exact lt_count_iff.mpr (by omega)

theorem le_count_mul : L.size ≤ L.count * L.block := by
  have hp := L.block_pos
  have hd := Nat.lt_div_mul_add hp (a := L.size + L.block - 1)
  simp only [count]
  omega

-- From some block on, the owned parts go through the rest of the text.
theorem tiles_range' {n : ℕ} (h : b + n = L.count) :
    Tiles (min (L.start b) L.size) ((List.range' b n).map fun b => (L.start b, L.ownedEnd b)) L.size := by
  induction n generalizing b with
  | zero =>
    have hle := L.le_count_mul
    rw [← h] at hle
    exact Nat.min_eq_right hle
  | succ n hi =>
    have hs := lt_count_iff.mp (show b < L.count by omega)
    have hp := L.block_pos
    have hn : L.ownedEnd b = min (L.start (b + 1)) L.size := by rw [ownedEnd, start, start, Nat.succ_mul]
    refine ⟨by omega, ?_, ?_⟩
    · simp only [ownedEnd]
      omega
    · exact hn ▸ hi (by omega)

theorem tiles : Tiles 0 ((List.range L.count).map fun b => (L.start b, L.ownedEnd b)) L.size := by
  have ht := L.tiles_range' (Nat.zero_add L.count)
  rwa [start, Nat.zero_mul, Nat.zero_min, ← List.range_eq_range'] at ht

-- What lies in the text is read by its owner exactly if it is not longer than what is left of the
-- block and the overlap. The end of the text makes no difference.
theorem le_readEnd_iff (h : pos + len ≤ L.size) :
    pos + len ≤ L.readEnd (pos / L.block) ↔ L.Covers pos len := by
  have hd := Nat.div_add_mod' pos L.block
  have hm := Nat.mod_lt pos L.block_pos
  simp only [readEnd, ownedEnd, start, Covers]
  omega

theorem covers_of_le (h : len ≤ L.overlap + 1) : L.Covers pos len := by
  have hm := Nat.mod_lt pos L.block_pos
  simp only [Covers]
  omega

end Blocks
end Search
