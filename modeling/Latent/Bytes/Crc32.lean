import Latent.Bytes.Endian
import Mathlib.Logic.Function.Iterate

namespace Crc32

-- The reflected polynomial.
def POLYNOMIAL : BitVec 32 :=
  0xEDB88320#32

def shift (crc : BitVec 32) : BitVec 32 :=
  if crc.getLsbD 0 then (crc >>> 1) ^^^ POLYNOMIAL else crc >>> 1

def byte (crc : BitVec 32) (b : UInt8) : BitVec 32 :=
  shift^[8] (crc ^^^ b.toBitVec.setWidth 32)

-- The running state, of which a hasher starts with all bits set and returns the complement.
def update (crc : BitVec 32) (l : Bytes) : BitVec 32 :=
  l.foldl byte crc

def init : BitVec 32 :=
  BitVec.allOnes 32

def finalize (crc : BitVec 32) : ℕ :=
  (~~~crc).toNat

def hash (l : Bytes) : ℕ :=
  finalize (update init l)

variable {crc c₁ c₂ : BitVec 32} {l l₁ l₂ : Bytes} {b b₁ b₂ : UInt8}

theorem update_append : update crc (l₁ ++ l₂) = update (update crc l₁) l₂ :=
  List.foldl_append

theorem finalize_lt : finalize crc < 2 ^ 32 :=
  (~~~crc).isLt

-- The polynomial has its top bit set and a shifted state has not, so the top bit tells which of the
-- two ways a shift went.
theorem getLsbD_shift : (shift crc).getLsbD 31 = crc.getLsbD 0 := by
  have hp : POLYNOMIAL.getLsbD 31 = true := by decide
  have hs : (crc >>> 1).getLsbD 31 = false := by simp
  simp only [shift]
  split
  case isTrue h  => rw [BitVec.getLsbD_xor, hs, hp, h, Bool.false_xor]
  case isFalse h => rw [hs, eq_false_of_ne_true h]

theorem shift_injective : Function.Injective shift := by
  intro c₁ c₂ h
  have h₀ : c₁.getLsbD 0 = c₂.getLsbD 0 := by
    rw [← getLsbD_shift, ← getLsbD_shift, h]
  have hs : c₁ >>> 1 = c₂ >>> 1 := by
    simp only [shift, h₀] at h
    split at h
    case isTrue  => exact (BitVec.xor_left_inj _).mp h
    case isFalse => exact h
  refine BitVec.eq_of_getLsbD_eq fun i _ => ?_
  cases i with
  | zero   => exact h₀
  | succ i => simpa [Nat.add_comm] using congrArg (BitVec.getLsbD · i) hs

theorem byte_injective (b : UInt8) : Function.Injective (byte · b) := fun _ _ h =>
  (BitVec.xor_left_inj _).mp <| shift_injective.iterate 8 h

theorem byte_injective_right (crc : BitVec 32) : Function.Injective (byte crc) := by
  intro b₁ b₂ h
  have hb := (BitVec.xor_right_inj _).mp <| shift_injective.iterate 8 h
  have hn : b₁.toBitVec.toNat % 2 ^ 32 = b₂.toBitVec.toNat % 2 ^ 32 := by
    simpa only [BitVec.toNat_setWidth] using congrArg BitVec.toNat hb
  have h₁ := b₁.toNat_lt
  have h₂ := b₂.toNat_lt
  refine UInt8.toNat_inj.mp ?_
  simp only [UInt8.toNat_toBitVec] at hn
  omega

theorem update_injective (l : Bytes) : Function.Injective (update · l) := by
  induction l with
  | nil         => exact fun _ _ h => h
  | cons b l hi => exact fun _ _ h => byte_injective b <| hi h

theorem finalize_injective : Function.Injective finalize := by
  intro c₁ c₂ h
  simpa using BitVec.toNat_inj.mp h

-- A change of one byte is never absorbed.
theorem hash_ne (h : b₁ ≠ b₂) : hash (l₁ ++ b₁ :: l₂) ≠ hash (l₁ ++ b₂ :: l₂) := by
  intro he
  have hu := finalize_injective he
  rw [update_append, update_append] at hu
  exact h <| byte_injective_right _ <| update_injective l₂ hu

theorem hash_set_ne {p : ℕ} (hp : p < l.length) (hb : l[p]? ≠ some b) : hash (l.set p b) ≠ hash l := by
  rw [List.getElem?_eq_getElem hp, Ne, Option.some.injEq] at hb
  have hl : l.take p ++ l[p] :: l.drop (p + 1) = l := by
    rw [List.getElem_cons_drop, List.take_append_drop]
  rw [List.set_eq_take_append_cons_drop, if_pos hp]
  exact fun h => hash_ne (Ne.symm hb) (h.trans (congrArg hash hl.symm))

end Crc32
