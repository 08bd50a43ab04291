import Latent.Rust.Slice

abbrev Bytes := List UInt8

namespace Bytes

variable {n k : ℕ} {l l₁ l₂ : Bytes}

-- Little-endian and big-endian readings of a byte string as one number.
def fromLE : Bytes → ℕ
  | []     => 0
  | b :: l => b.toNat + 256 * fromLE l

def fromBE (l : Bytes) : ℕ :=
  fromLE l.reverse

def toLE : ℕ → ℕ → Bytes
  | 0, _     => []
  | k + 1, n => UInt8.ofNat n :: toLE k (n / 256)

def toBE (k n : ℕ) : Bytes :=
  (toLE k n).reverse

def zeros (k : ℕ) : Bytes :=
  List.replicate k 0

@[simp] theorem length_toLE : (toLE k n).length = k := by
  induction k generalizing n with
  | zero      => rfl
  | succ k hi => simp [toLE, hi]

@[simp] theorem length_toBE : (toBE k n).length = k := by
  simp [toBE]

@[simp] theorem length_zeros : (zeros k).length = k :=
  List.length_replicate

theorem fromLE_lt (l : Bytes) : fromLE l < 256 ^ l.length := by
  induction l with
  | nil => simp [fromLE]
  | cons b l hi =>
    have hb := b.toNat_lt
    simp only [fromLE, List.length_cons, Nat.pow_succ]
    omega

theorem fromLE_toLE (h : n < 256 ^ k) : fromLE (toLE k n) = n := by
  induction k generalizing n with
  | zero => simp_all [toLE, fromLE]
  | succ k hi =>
    have hq : n / 256 < 256 ^ k := by
      rw [Nat.pow_succ] at h
      omega
    simp only [toLE, fromLE, hi hq, UInt8.toNat_ofNat']
    omega

@[simp] theorem fromLE_toLE_uInt64 (n : UInt64) : fromLE (toLE 8 n.toNat) = n.toNat :=
  fromLE_toLE n.toNat_lt

theorem toLE_fromLE (l : Bytes) : toLE l.length (fromLE l) = l := by
  induction l with
  | nil => rfl
  | cons b l hi =>
    have hb := b.toNat_lt
    have hq : (b.toNat + 256 * fromLE l) / 256 = fromLE l := by omega
    have hr : UInt8.ofNat (b.toNat + 256 * fromLE l) = b := by
      apply UInt8.toNat_inj.mp
      simp only [UInt8.toNat_ofNat']
      omega
    simp only [List.length_cons, toLE, fromLE, hq, hr, hi]

-- Two byte strings of one length that read as the same number are the same.
theorem fromLE_inj (h : l₁.length = l₂.length) (he : fromLE l₁ = fromLE l₂) : l₁ = l₂ := by
  rw [← toLE_fromLE l₁, ← toLE_fromLE l₂, h, he]

-- The little-endian number in the `k` bytes from `off` on.
def leAt (l : Bytes) (off k : ℕ) : ℕ :=
  fromLE (Rust.subslice l off k)

variable {off p : ℕ} {b : UInt8}

theorem leAt_lt : leAt l off k < 256 ^ k := by
  have h : (Rust.subslice l off k).length ≤ k := by
    rw [Rust.length_subslice]
    exact Nat.min_le_left ..
  exact Nat.lt_of_lt_of_le (fromLE_lt _) (Nat.pow_le_pow_right (by decide) h)

theorem leAt_set_of_outside (h : p < off ∨ off + k ≤ p) : leAt (l.set p b) off k = leAt l off k := by
  rw [leAt, Rust.subslice_set_of_outside h, leAt]

theorem leAt_set_ne (hk : off + k ≤ l.length) (h₁ : off ≤ p) (h₂ : p < off + k) (hb : l[p]? ≠ some b) :
    leAt (l.set p b) off k ≠ leAt l off k := by
  intro he
  have hs := fromLE_inj (by simp [Rust.length_subslice]) he
  have hp := congrArg (·[p - off]?) hs
  simp only [Rust.getElem?_subslice_of_lt (show p - off < k by omega), Nat.add_sub_cancel' h₁] at hp
  rw [List.getElem?_set_self (by omega)] at hp
  exact hb hp.symm

end Bytes
