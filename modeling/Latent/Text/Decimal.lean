import Mathlib.Algebra.Group.Nat.Defs
import Mathlib.Algebra.GroupWithZero.Nat
import Mathlib.Data.List.Basic
import Mathlib.Tactic.Common

namespace Text.Decimal

variable {width n acc k : ℕ} {rest cs : List Char}

-- The last decimal digits of a number, as many as there are to be.
def pad : (width n : ℕ) → List Char
  | 0, _         => []
  | width + 1, n => Nat.digitChar (n / 10 ^ width % 10) :: pad width n

-- Reads as many digits, after those that are read already.
def number : (width acc : ℕ) → List Char → Option (ℕ × List Char)
  | 0, acc, cs              => some (acc, cs)
  | _ + 1, _, []            => none
  | width + 1, acc, c :: cs =>
    if c.isDigit then number width (10 * acc + (c.toNat - '0'.toNat)) cs else none

def expect (allowed : List Char) : List Char → Option (List Char)
  | []      => none
  | c :: cs => if c ∈ allowed then some cs else none

theorem number_pad :
    number width acc (pad width n ++ rest) = some (acc * 10 ^ width + n % 10 ^ width, rest) := by
  induction width generalizing acc with
  | zero => simp [number, pad, Nat.mod_one]
  | succ width hi =>
    have hd : n / 10 ^ width % 10 < 10 := Nat.mod_lt _ (by decide)
    have hc : (Nat.digitChar (n / 10 ^ width % 10)).isDigit = true := by
      rw [Nat.isDigit_digitChar, decide_eq_true hd]
    have hv := Nat.toNat_digitChar_sub_48_of_lt_ten hd
    rw [pad, List.cons_append, number, if_pos hc, hi, show '0'.toNat = 48 from rfl, hv, Nat.mod_pow_succ]
    grind

theorem number_pad_of_lt (h : n < 10 ^ width) : number width 0 (pad width n ++ rest) = some (n, rest) := by
  rw [number_pad, Nat.zero_mul, Nat.zero_add, Nat.mod_eq_of_lt h]

theorem expect_cons {allowed : List Char} {c : Char} (h : c ∈ allowed) : expect allowed (c :: cs) = some cs :=
  if_pos h

theorem length_pad : (pad width n).length = width := by
  induction width with
  | zero => rfl
  | succ width hi => rw [pad, List.length_cons, hi]

theorem isDigit_of_mem_pad {c : Char} (h : c ∈ pad width n) : c.isDigit := by
  induction width with
  | zero => cases h
  | succ width hi =>
    rcases List.mem_cons.mp h with rfl | h
    · rw [Nat.isDigit_digitChar, decide_eq_true (Nat.mod_lt _ (by decide))]
    · exact hi h

-- The digits of a fraction without the zeros at its end.
def trim : List Char → List Char
  | []      => []
  | c :: cs => if c = '0' ∧ trim cs = [] then [] else c :: trim cs

theorem exists_trim (cs : List Char) : ∃ k, cs = trim cs ++ List.replicate k '0' := by
  induction cs with
  | nil => exact ⟨0, rfl⟩
  | cons c cs hi =>
    obtain ⟨k, hk⟩ := hi
    rw [trim]
    split
    case isTrue h =>
      refine ⟨k + 1, ?_⟩
      rw [h.2, List.nil_append] at hk
      rw [List.nil_append, List.replicate_succ, h.1, ← hk]
    case isFalse => exact ⟨k, by rw [List.cons_append, ← hk]⟩

-- Filling it up with zeros gives the fraction back.
theorem take_trim (h : cs.length = width) : (trim cs ++ List.replicate width '0').take width = cs := by
  have ⟨k, hk⟩ := exists_trim cs
  have hl : (trim cs).length + k = width := by
    rw [← h, ← List.length_replicate (n := k) (a := '0'), ← List.length_append, ← hk]
  rw [List.take_append, List.take_of_length_le (by omega), List.take_replicate,
    Nat.min_eq_left (by omega), ← hl, Nat.add_sub_cancel_left, ← hk]

end Text.Decimal
