import Latent.Rust.Exec

namespace Rust

-- The build profile decides what an overflowing `+`, `-` or `*` does: it panics where the profile
-- checks for overflow and wraps around where it does not.
class OverflowChecks where
  enabled : Bool

-- The development and the release profile.
@[reducible] def OverflowChecks.on : OverflowChecks :=
  ⟨true⟩

@[reducible] def OverflowChecks.off : OverflowChecks :=
  ⟨false⟩

namespace U64

variable {ε : Type} {a b : ℕ}

section

variable [OverflowChecks]

def overflow (wrapped : ℕ) : Exec ε ℕ :=
  if OverflowChecks.enabled then .panic else .ok wrapped

def add (a b : ℕ) : Exec ε ℕ :=
  if a + b < 2 ^ 64 then .ok (a + b) else overflow ((a + b) % 2 ^ 64)

def sub (a b : ℕ) : Exec ε ℕ :=
  if b ≤ a then .ok (a - b) else overflow ((a + 2 ^ 64 - b) % 2 ^ 64)

def mul (a b : ℕ) : Exec ε ℕ :=
  if a * b < 2 ^ 64 then .ok (a * b) else overflow (a * b % 2 ^ 64)

theorem add_eq (h : a + b < 2 ^ 64) : (add a b : Exec ε ℕ) = .ok (a + b) :=
  if_pos h

theorem sub_eq (h : b ≤ a) : (sub a b : Exec ε ℕ) = .ok (a - b) :=
  if_pos h

theorem mul_eq (h : a * b < 2 ^ 64) : (mul a b : Exec ε ℕ) = .ok (a * b) :=
  if_pos h

-- Without the checks there always is a result, and with them it is the exact one.
theorem exists_add (h : OverflowChecks.enabled = false) (a b : ℕ) : ∃ c, (add a b : Exec ε ℕ) = .ok c := by
  rw [add, overflow]
  split
  case isTrue  => exact ⟨_, rfl⟩
  case isFalse => exact ⟨_, if_neg (by simp [h])⟩

theorem exists_sub (h : OverflowChecks.enabled = false) (a b : ℕ) : ∃ c, (sub a b : Exec ε ℕ) = .ok c := by
  rw [sub, overflow]
  split
  case isTrue  => exact ⟨_, rfl⟩
  case isFalse => exact ⟨_, if_neg (by simp [h])⟩

theorem exact_of_add {c : ℕ} (h : OverflowChecks.enabled = true) (ha : (add a b : Exec ε ℕ) = .ok c) :
    a + b < 2 ^ 64 ∧ c = a + b := by
  rw [add, overflow] at ha
  split at ha
  case isTrue hl =>
    cases ha
    exact ⟨hl, rfl⟩
  case isFalse => cases ha

theorem exact_of_sub {c : ℕ} (h : OverflowChecks.enabled = true) (hs : (sub a b : Exec ε ℕ) = .ok c) :
    b ≤ a ∧ c = a - b := by
  rw [sub, overflow] at hs
  split at hs
  case isTrue hl =>
    cases hs
    exact ⟨hl, rfl⟩
  case isFalse => cases hs

-- Whatever the profile, a result that is returned is the exact one up to a multiple of 2⁶⁴.
theorem eq_mod_of_add {c : ℕ} (h : (add a b : Exec ε ℕ) = .ok c) : c = (a + b) % 2 ^ 64 := by
  simp only [add, overflow] at h
  split at h
  case isTrue hl =>
    cases h
    exact (Nat.mod_eq_of_lt hl).symm
  case isFalse =>
    split at h <;> cases h
    rfl

theorem eq_mod_of_sub {c : ℕ} (ha : a < 2 ^ 64) (h : (sub a b : Exec ε ℕ) = .ok c) :
    c = (a + 2 ^ 64 - b) % 2 ^ 64 := by
  simp only [sub, overflow] at h
  split at h
  case isTrue hl =>
    cases h
    omega
  case isFalse =>
    split at h <;> cases h
    rfl

end

-- With the checks, nothing but an exact result is returned.
section

attribute [local instance] OverflowChecks.on

theorem add_eq_panic (h : ¬a + b < 2 ^ 64) : (add a b : Exec ε ℕ) = .panic :=
  if_neg h

theorem mul_eq_panic (h : ¬a * b < 2 ^ 64) : (mul a b : Exec ε ℕ) = .panic :=
  if_neg h

theorem add_eq_ok_iff {c : ℕ} : (add a b : Exec ε ℕ) = .ok c ↔ a + b < 2 ^ 64 ∧ a + b = c := by
  by_cases h : a + b < 2 ^ 64
  case pos => simp [-Nat.reducePow, add_eq h, h]
  case neg => simp [-Nat.reducePow, add_eq_panic h, h]

theorem mul_eq_ok_iff {c : ℕ} : (mul a b : Exec ε ℕ) = .ok c ↔ a * b < 2 ^ 64 ∧ a * b = c := by
  by_cases h : a * b < 2 ^ 64
  case pos => simp [-Nat.reducePow, mul_eq h, h]
  case neg => simp [-Nat.reducePow, mul_eq_panic h, h]

end

-- Division and remainder by zero panic in every profile.
def div (a b : ℕ) : Exec ε ℕ :=
  if b = 0 then .panic else .ok (a / b)

def rem (a b : ℕ) : Exec ε ℕ :=
  if b = 0 then .panic else .ok (a % b)

theorem div_eq (h : 0 < b) : (div a b : Exec ε ℕ) = .ok (a / b) :=
  if_neg (Nat.pos_iff_ne_zero.mp h)

theorem rem_eq (h : 0 < b) : (rem a b : Exec ε ℕ) = .ok (a % b) :=
  if_neg (Nat.pos_iff_ne_zero.mp h)

def checkedAdd (a b : ℕ) : Option ℕ :=
  if a + b < 2 ^ 64 then some (a + b) else none

def checkedSub (a b : ℕ) : Option ℕ :=
  if b ≤ a then some (a - b) else none

def checkedMul (a b : ℕ) : Option ℕ :=
  if a * b < 2 ^ 64 then some (a * b) else none

def saturatingAdd (a b : ℕ) : ℕ :=
  min (a + b) (2 ^ 64 - 1)

def saturatingMul (a b : ℕ) : ℕ :=
  min (a * b) (2 ^ 64 - 1)

-- Truncated subtraction on `ℕ` is what `saturating_sub` does.
def saturatingSub (a b : ℕ) : ℕ :=
  a - b

end U64
end Rust
