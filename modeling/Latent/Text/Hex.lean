import Latent.Bytes.Endian

namespace Text

def hexDigit (n : ℕ) : Char :=
  if n < 10 then Char.ofNat (0x30 + n) else Char.ofNat (0x57 + n)

-- A number below `16 ^ width` in `width` lowercase digits, as `{:0width x}` pads it.
def hexPad : (width n : ℕ) → List Char
  | 0, _         => []
  | width + 1, n => hexPad width (n / 16) ++ [hexDigit (n % 16)]

def hex (l : Bytes) : List Char :=
  l.flatMap fun b => hexPad 2 b.toNat

theorem hexPad_add (a b n : ℕ) : hexPad (a + b) n = hexPad a (n / 16 ^ b) ++ hexPad b n := by
  induction b generalizing n with
  | zero => simp [hexPad]
  | succ b hi => simp [hexPad, hi, Nat.div_div_eq_div_mul, Nat.pow_succ, Nat.mul_comm]

theorem hexPad_two_mod (n : ℕ) : hexPad 2 (n % 256) = hexPad 2 n := by
  have h₁ : n % 256 / 16 % 16 = n / 16 % 16 := by omega
  have h₀ : n % 256 % 16 = n % 16 := by omega
  simp [hexPad, h₁, h₀]

-- A little-endian number prints its bytes from the last to the first.
theorem hexPad_fromLE (l : Bytes) : hexPad (2 * l.length) (Bytes.fromLE l) = hex l.reverse := by
  induction l with
  | nil => rfl
  | cons b l hi =>
    have hb := b.toNat_lt
    have hq : (b.toNat + 256 * Bytes.fromLE l) / 16 ^ 2 = Bytes.fromLE l := by omega
    have hr : (b.toNat + 256 * Bytes.fromLE l) % 256 = b.toNat := by omega
    calc hexPad (2 * (b :: l).length) (Bytes.fromLE (b :: l))
      _ = hexPad (2 * l.length + 2) (b.toNat + 256 * Bytes.fromLE l) := rfl
      _ = hex l.reverse ++ hexPad 2 b.toNat := by rw [hexPad_add, hq, hi, ← hexPad_two_mod, hr]
      _ = hex (b :: l).reverse := by simp [hex]

end Text
