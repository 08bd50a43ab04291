import Latent.Rust.Int
import Mathlib.Data.List.Basic

namespace Rust

variable {ε α β : Type}

namespace Exec

variable {x y : Exec ε α} {f : α → Exec ε β} {l l₁ l₂ : List α} {v : Option ε}

-- How a run comes out when it gives no result: with an error, or with a panic.
def failure : Exec ε α → Option (Option ε)
  | ok _  => none
  | err e => some (some e)
  | panic => some none

@[simp] theorem failure_ok (a : α) : (ok a : Exec ε α).failure = none :=
  rfl

@[simp] theorem failure_err (e : ε) : (err e : Exec ε α).failure = some (some e) :=
  rfl

@[simp] theorem failure_panic : (panic : Exec ε α).failure = some none :=
  rfl

theorem failure_eq_none_iff : x.failure = none ↔ ∃ a, x = ok a := by
  cases x <;> simp

-- Two runs of one type that fail in the same way are the same.
theorem eq_of_failure (hx : x.failure = some v) (hy : y.failure = some v) : x = y := by
  cases x <;> cases hx <;> cases y <;> cases hy <;> rfl

-- What always gives a result does not change how a run fails.
theorem failure_bind_of_total (h : ∀ a, x = ok a → ∃ b, f a = ok b) : (x >>= f).failure = x.failure := by
  cases x with
  | ok a =>
    have ⟨b, hb⟩ := h a rfl
    rw [ok_bind, hb]
    rfl
  | err e => rfl
  | panic => rfl

-- Of the runs of a loop, the first one that fails decides.
theorem failure_mapM : (l.mapM f).failure = l.findSome? fun a => (f a).failure := by
  induction l with
  | nil => rfl
  | cons a l hi =>
    rw [List.mapM_cons, List.findSome?_cons, ← hi]
    cases f a with
    | ok b  => cases l.mapM f <;> rfl
    | err e => rfl
    | panic => rfl

theorem exists_mapM_eq_ok (h : ∀ a ∈ l, ∃ b, f a = ok b) : ∃ bs, l.mapM f = ok bs := by
  rw [← failure_eq_none_iff, failure_mapM, List.findSome?_eq_none_iff]
  intro a ha
  have ⟨b, hb⟩ := h a ha
  rw [hb, failure_ok]

-- A loop panics in the turn of some element that it gets to.
theorem foldlM_eq_panic_iff {f : β → α → Exec ε β} {b : β} : l.foldlM f b = panic ↔
    ∃ l₁ a l₂ b', l = l₁ ++ a :: l₂ ∧ l₁.foldlM f b = ok b' ∧ f b' a = panic := by
  constructor
  case mp =>
    induction l generalizing b with
    | nil => nofun
    | cons a l hi =>
      intro h
      rw [List.foldlM_cons] at h
      cases hf : f b a with
      | ok b' =>
        rw [hf, ok_bind] at h
        obtain ⟨l₁, c, l₂, b'', rfl, hl, hc⟩ := hi h
        refine ⟨a :: l₁, c, l₂, b'', rfl, ?_, hc⟩
        rw [List.foldlM_cons, hf, ok_bind, hl]
      | err e =>
        rw [hf] at h
        cases h
      | panic => exact ⟨[], a, l, b, rfl, rfl, hf⟩
  case mpr =>
    rintro ⟨l₁, a, l₂, b', rfl, hl, ha⟩
    rw [List.foldlM_append, hl, ok_bind, List.foldlM_cons, ha]
    rfl

-- Whatever a run fails with has some property.
def FailsWith (x : Exec ε α) (P : ε → Prop) : Prop :=
  ∀ e, x = err e → P e

namespace FailsWith

variable {P Q : ε → Prop} {e : ε}

theorem ok (a : α) : (Exec.ok a : Exec ε α).FailsWith P := by
  intro _ h
  cases h

theorem panic : (Exec.panic : Exec ε α).FailsWith P := by
  intro _ h
  cases h

theorem err (h : P e) : (Exec.err e : Exec ε α).FailsWith P := by
  intro e' he
  cases he
  exact h

theorem mono (h : x.FailsWith P) (hP : ∀ e, P e → Q e) : x.FailsWith Q :=
  fun e he => hP e (h e he)

theorem bind (h : x.FailsWith P) (hf : ∀ a, x = .ok a → (f a).FailsWith P) : (x >>= f).FailsWith P := by
  cases x with
  | ok a  => exact hf a rfl
  | err e => exact .err (h e rfl)
  | panic => exact .panic

theorem errIf {c : Prop} [Decidable c] (h : P e) : (Exec.errIf c e).FailsWith P := by
  by_cases hc : c
  case pos => rw [errIf_pos hc]; exact .err h
  case neg => rw [errIf_neg hc]; exact .ok ()

theorem okOr {o : Option α} (h : P e) : (Exec.okOr e o).FailsWith P := by
  cases o with
  | none   => exact .err h
  | some a => exact .ok a

theorem mapErr {ε' : Type} {g : ε → ε'} {P : ε' → Prop} (h : ∀ e, P (g e)) : (x.mapErr g).FailsWith P := by
  cases x with
  | ok a  => exact .ok a
  | err e => exact .err (h e)
  | panic => exact .panic

theorem foldlM {f : β → α → Exec ε β} {b : β} (h : ∀ b a, (f b a).FailsWith P) :
    (l.foldlM f b).FailsWith P := by
  induction l generalizing b with
  | nil => exact .ok b
  | cons a l hi =>
    rw [List.foldlM_cons]
    exact (h b a).bind fun _ _ => hi

end FailsWith

end Exec

namespace U64

variable {P : ε → Prop} (a b : ℕ)

theorem add_failsWith [OverflowChecks] : (add a b : Exec ε ℕ).FailsWith P := by
  rw [add, overflow]
  split
  case isTrue  => exact .ok _
  case isFalse => split <;> [exact .panic; exact .ok _]

theorem mul_failsWith [OverflowChecks] : (mul a b : Exec ε ℕ).FailsWith P := by
  rw [mul, overflow]
  split
  case isTrue  => exact .ok _
  case isFalse => split <;> [exact .panic; exact .ok _]

theorem div_failsWith : (div a b : Exec ε ℕ).FailsWith P := by
  rw [div]
  split <;> [exact .panic; exact .ok _]

end U64

-- All the values that `g` has on a list are the same one.
def Agrees (g : α → Option β) (l : List α) : Prop :=
  ∀ a ∈ l, ∀ a' ∈ l, ∀ v v', g a = some v → g a' = some v' → v = v'

variable {g : α → Option β} {l l₁ l₂ : List α}

-- Then it does not matter which of them is found first.
theorem findSome?_eq_of_perm (hg : Agrees g l₁) (hp : l₁.Perm l₂) : l₁.findSome? g = l₂.findSome? g := by
  cases h₂ : l₂.findSome? g with
  | none =>
    rw [List.findSome?_eq_none_iff] at h₂ ⊢
    exact fun a ha => h₂ a (hp.mem_iff.mp ha)
  | some v =>
    have ⟨a, ha, hv⟩ := List.exists_of_findSome?_eq_some h₂
    cases h₁ : l₁.findSome? g with
    | none =>
      have hn := List.findSome?_eq_none_iff.mp h₁ a (hp.mem_iff.mpr ha)
      cases hn.symm.trans hv
    | some v' =>
      have ⟨a', ha', hv'⟩ := List.exists_of_findSome?_eq_some h₁
      rw [hg a' ha' a (hp.mem_iff.mpr ha) v' v hv' hv]

end Rust
