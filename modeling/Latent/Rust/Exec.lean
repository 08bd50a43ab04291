import Mathlib.Algebra.Group.Int.Defs
import Mathlib.Algebra.Group.Nat.Defs
import Mathlib.Algebra.GroupWithZero.Nat
import Mathlib.Tactic.Common

namespace Rust

-- A run of a Rust function that returns `Result<α, ε>`: it returns one of the two variants, or it
-- panics. An infallible function has `ε = Empty`, a function that returns `Option` has `ε = Unit`.
inductive Exec (ε α : Type)
  | ok (a : α)
  | err (e : ε)
  | panic
  deriving DecidableEq, Repr

namespace Exec

variable {ε ε' α β γ : Type} {x : Exec ε α} {f : α → Exec ε β}

protected def bind (x : Exec ε α) (f : α → Exec ε β) : Exec ε β :=
  match x with
  | ok a  => f a
  | err e => err e
  | panic => panic

instance : Monad (Exec ε) where
  pure := ok
  bind := Exec.bind

@[simp] theorem pure_eq (a : α) : (pure a : Exec ε α) = ok a :=
  rfl

@[simp] theorem ok_bind (a : α) (f : α → Exec ε β) : (ok a >>= f) = f a :=
  rfl

@[simp] theorem err_bind (e : ε) (f : α → Exec ε β) : (err e >>= f) = err e :=
  rfl

@[simp] theorem panic_bind (f : α → Exec ε β) : (panic >>= f) = panic :=
  rfl

@[simp] theorem map_ok (g : α → β) (a : α) : g <$> (ok a : Exec ε α) = ok (g a) :=
  rfl

instance : LawfulMonad (Exec ε) :=
  LawfulMonad.mk' (Exec ε) (by rintro _ (_ | _ | _) <;> rfl) (fun _ _ => rfl)
    (by rintro _ _ _ (_ | _ | _) _ _ <;> rfl)

theorem bind_eq_ok {b : β} : (x >>= f) = ok b ↔ ∃ a, x = ok a ∧ f a = ok b := by
  cases x <;> simp

-- The `?` operator where the two error types differ: the error is converted, a panic is not.
def mapErr (g : ε → ε') : Exec ε α → Exec ε' α
  | ok a  => ok a
  | err e => err (g e)
  | panic => panic

@[simp] theorem mapErr_ok (g : ε → ε') (a : α) : (ok a : Exec ε α).mapErr g = ok a :=
  rfl

@[simp] theorem mapErr_err (g : ε → ε') (e : ε) : (err e : Exec ε α).mapErr g = err (g e) :=
  rfl

@[simp] theorem mapErr_panic (g : ε → ε') : (panic : Exec ε α).mapErr g = panic :=
  rfl

-- `Result::ok`.
def toOption (x : Exec ε α) : Exec Unit α :=
  x.mapErr fun _ => ()

@[simp] theorem toOption_ok (a : α) : (ok a : Exec ε α).toOption = ok a :=
  rfl

@[simp] theorem toOption_err (e : ε) : (err e : Exec ε α).toOption = err () :=
  rfl

-- `Option::ok_or_else`.
def okOr (e : ε) : Option α → Exec ε α
  | some a => ok a
  | none   => err e

@[simp] theorem okOr_some (e : ε) (a : α) : okOr e (some a) = ok a :=
  rfl

@[simp] theorem okOr_none (e : ε) : okOr e (none : Option α) = err e :=
  rfl

theorem okOr_eq_ok {e : ε} {o : Option α} {a : α} : okOr e o = ok a ↔ o = some a := by
  cases o <;> simp

-- `Option::unwrap`.
def unwrap : Option α → Exec ε α
  | some a => ok a
  | none   => panic

@[simp] theorem unwrap_some (a : α) : (unwrap (some a) : Exec ε α) = ok a :=
  rfl

-- `if c { return Err(e); }`.
def errIf (c : Prop) [Decidable c] (e : ε) : Exec ε Unit :=
  if c then err e else ok ()

section

variable {c : Prop} [Decidable c] {e : ε}

@[simp] theorem errIf_pos (h : c) : errIf c e = err e :=
  if_pos h

@[simp] theorem errIf_neg (h : ¬c) : errIf c e = ok () :=
  if_neg h

theorem errIf_eq_ok {u : Unit} : errIf c e = ok u ↔ ¬c := by
  by_cases h : c <;> simp [h]

-- An error that neither the check nor what follows it raises.
theorem errIf_bind_ne {e' : ε} {k : Unit → Exec ε α} (he : e ≠ e') (hk : ¬c → k () ≠ err e') :
    (errIf c e >>= k) ≠ err e' := by
  by_cases h : c
  case pos => simpa [h] using he
  case neg => simpa [h] using hk h

end

-- Running `f` on every element in order, for loops that push one result for each element.
theorem mapM_eq_ok {f : α → Exec ε β} {g : α → β} {l : List α} (h : ∀ a ∈ l, f a = ok (g a)) :
    l.mapM f = ok (l.map g) := by
  induction l with
  | nil => rfl
  | cons a l hi =>
    rw [List.mapM_cons, h a (by simp), hi fun b hb => h b (by simp [hb])]
    rfl

theorem exists_of_mapM_eq_ok {f : α → Exec ε β} {l : List α} {bs : List β} (h : l.mapM f = ok bs) {a : α}
    (ha : a ∈ l) : ∃ b, f a = ok b := by
  induction l generalizing bs with
  | nil => cases ha
  | cons c l hi =>
    rw [List.mapM_cons] at h
    have ⟨b, hb, h⟩ := bind_eq_ok.mp h
    have ⟨cs, hl, _⟩ := bind_eq_ok.mp h
    rcases List.mem_cons.mp ha with rfl | ha
    · exact ⟨b, hb⟩
    · exact hi hl ha

end Exec
end Rust
