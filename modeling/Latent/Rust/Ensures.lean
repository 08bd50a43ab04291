import Latent.Rust.Int

namespace Rust

variable {ε α β : Type}

namespace Exec

-- A run that does not panic and whose result, where it returns one, satisfies the postcondition.
def Ensures : Exec ε α → (α → Prop) → Prop
  | ok a, P  => P a
  | err _, _ => True
  | panic, _ => False

variable {x : Exec ε α} {f : α → Exec ε β} {P Q : α → Prop} {R : β → Prop} {a : α}

@[simp] theorem ensures_ok : (ok a : Exec ε α).Ensures P ↔ P a :=
  Iff.rfl

@[simp] theorem ensures_err {e : ε} : (err e : Exec ε α).Ensures P :=
  trivial

@[simp] theorem not_ensures_panic : ¬(panic : Exec ε α).Ensures P :=
  not_false

namespace Ensures

theorem ne_panic (h : x.Ensures P) : x ≠ panic := by
  rintro rfl
  exact h

theorem mono (h : x.Ensures P) (hP : ∀ a, P a → Q a) : x.Ensures Q := by
  cases x with
  | ok a  => exact hP a h
  | err e => exact ensures_err
  | panic => exact h

theorem bind (h : x.Ensures P) (hf : ∀ a, P a → (f a).Ensures R) : (x >>= f).Ensures R := by
  cases x with
  | ok a  => exact hf a h
  | err e => exact ensures_err
  | panic => exact absurd h not_ensures_panic

theorem errIf {c : Prop} [Decidable c] {e : ε} : (Exec.errIf c e).Ensures fun _ => ¬c := by
  by_cases h : c
  case pos => rw [errIf_pos h]; exact ensures_err
  case neg => rw [errIf_neg h]; exact h

theorem okOr {e : ε} {o : Option α} : (Exec.okOr e o).Ensures fun a => o = some a := by
  cases o with
  | none   => exact ensures_err
  | some a => exact rfl

-- What every turn of a loop preserves holds after the loop.
theorem foldlM {f : β → α → Exec ε β} {l : List α} {b : β} (h₀ : R b)
    (hf : ∀ b a, a ∈ l → R b → (f b a).Ensures R) : (l.foldlM f b).Ensures R := by
  induction l generalizing b with
  | nil => exact h₀
  | cons a l hi =>
    rw [List.foldlM_cons]
    refine (hf b a List.mem_cons_self h₀).bind fun b' h => ?_
    exact hi h fun b a ha => hf b a (List.mem_cons_of_mem _ ha)

end Ensures
end Exec

namespace U64

variable [OverflowChecks] {a b : ℕ}

theorem add_ensures (h : a + b < 2 ^ 64) : (add a b : Exec ε ℕ).Ensures fun c => c = a + b := by
  rw [add_eq h]
  rfl

theorem mul_ensures (h : a * b < 2 ^ 64) : (mul a b : Exec ε ℕ).Ensures fun c => c = a * b := by
  rw [mul_eq h]
  rfl

end U64
end Rust
