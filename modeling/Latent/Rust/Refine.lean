import Latent.Rust.Slice

namespace Rust

variable {ε α β : Type}

namespace Exec

variable {x : Exec ε α} {f : α → Exec ε β} {o : Option α} {g : α → Option β}

-- A run refines an exact partial result when it returns that result where there is one, and an
-- error, but never a panic, where there is none.
def Refines (x : Exec ε α) : Option α → Prop
  | some a => x = ok a
  | none   => ∃ e, x = err e

@[simp] theorem refines_some (a : α) : x.Refines (some a) ↔ x = ok a :=
  Iff.rfl

@[simp] theorem refines_none : x.Refines none ↔ ∃ e, x = err e :=
  Iff.rfl

theorem ok_refines (a : α) : (ok a : Exec ε α).Refines (some a) :=
  rfl

theorem Refines.bind (hx : x.Refines o) (hf : ∀ a, o = some a → (f a).Refines (g a)) :
    (x >>= f).Refines (o.bind g) := by
  cases o with
  | none =>
    have ⟨e, he⟩ := hx
    exact ⟨e, by rw [he, err_bind]⟩
  | some a =>
    cases hx
    exact hf a rfl

theorem Refines.map {h : α → β} (hx : x.Refines o) :
    (x >>= fun a => ok (h a)).Refines (o.map h) := by
  cases o with
  | none =>
    have ⟨e, he⟩ := hx
    exact ⟨e, by rw [he, err_bind]⟩
  | some a =>
    cases hx
    rfl

theorem Refines.ok_iff (hx : x.Refines o) (a : α) : x = ok a ↔ o = some a := by
  cases o with
  | none   => have ⟨e, he⟩ := hx; simp [he]
  | some b => cases hx; simp

-- A run decides a property when it returns a fixed value where the property holds, and an error, but
-- never a panic, where it does not.
structure Decides (x : Exec ε α) (P : Prop) (a : α) : Prop where
  ok  : P → x = .ok a
  err : ¬P → ∃ e, x = .err e

namespace Decides

variable {P Q : Prop} {a b : α} {c : Prop} [Decidable c] {e : ε} {k : Unit → Exec ε α}

theorem ofErrIf (hc : ¬c ↔ Q) : (errIf c e).Decides Q () where
  ok hQ  := errIf_neg (hc.mpr hQ)
  err hQ := ⟨e, errIf_pos (of_not_not fun h => hQ (hc.mp h))⟩

theorem bind {y : Exec ε β} {b : β} {f : β → Exec ε α} (hy : y.Decides Q b)
    (hf : Q → (f b).Decides P a) : (y >>= f).Decides (Q ∧ P) a where
  ok := by
    intro ⟨hQ, hP⟩
    rw [hy.ok hQ, ok_bind, (hf hQ).ok hP]
  err := by
    intro hn
    by_cases hQ : Q
    case pos =>
      rw [hy.ok hQ, ok_bind]
      exact (hf hQ).err fun hP => hn ⟨hQ, hP⟩
    case neg =>
      have ⟨e, he⟩ := hy.err hQ
      exact ⟨e, by rw [he, err_bind]⟩

theorem check (hc : ¬c ↔ Q) (h : Q → (k ()).Decides P a) : (errIf c e >>= k).Decides (Q ∧ P) a :=
  bind (ofErrIf hc) h

theorem toOption (h : x.Decides P a) : x.toOption.Decides P a where
  ok hP  := by rw [h.ok hP, toOption_ok]
  err hP := by
    have ⟨e, he⟩ := h.err hP
    exact ⟨(), by rw [he, toOption_err]⟩

theorem okOr {o : Option α} (h : Q → o = some a) (hn : ¬Q → o = none) : (Exec.okOr e o).Decides Q a where
  ok hQ  := by rw [h hQ, okOr_some]
  err hQ := ⟨e, by rw [hn hQ, okOr_none]⟩

theorem andThen (h : x.Decides P a) {f : α → Exec ε β} {b : β} (hf : P → f a = Exec.ok b) :
    (x >>= f).Decides P b where
  ok hP  := by rw [h.ok hP, ok_bind, hf hP]
  err hP := by
    have ⟨e, he⟩ := h.err hP
    exact ⟨e, by rw [he, err_bind]⟩

theorem last (hc : ¬c ↔ Q) : (errIf c e >>= fun _ => Exec.ok a).Decides Q a :=
  andThen (ofErrIf hc) fun _ => rfl

theorem ok_iff (h : x.Decides P a) : x = .ok b ↔ P ∧ b = a := by
  constructor
  case mp =>
    intro hx
    by_cases hP : P
    case pos => exact ⟨hP, Exec.ok.inj (hx.symm.trans (h.ok hP))⟩
    case neg =>
      have ⟨e, he⟩ := h.err hP
      cases hx.symm.trans he
  case mpr =>
    intro ⟨hP, hb⟩
    rw [hb, h.ok hP]

theorem cases (h : x.Decides P a) : (∃ e, x = .err e) ∨ x = .ok a := by
  by_cases hP : P
  case pos => exact .inr (h.ok hP)
  case neg => exact .inl (h.err hP)

end Decides
end Exec

-- Evaluating a partial function at `n` consecutive positions gives the list of its values.
theorem mapM_range'_eq_some_iff {f : ℕ → Option α} {start n : ℕ} {l : List α} :
    (List.range' start n).mapM f = some l ↔ l.length = n ∧ ∀ i, i < n → f (start + i) = l[i]? := by
  induction n generalizing start l with
  | zero => simp [eq_comm]
  | succ n hi =>
    rw [List.range'_succ, List.mapM_cons]
    constructor
    case mp =>
      intro h
      simp only [Option.bind_eq_bind, Option.bind_eq_some_iff, hi, Option.pure_def] at h
      obtain ⟨a, ha, t, ⟨hl, ht⟩, h⟩ := h
      cases h
      refine ⟨by simp [hl], fun i hlt => ?_⟩
      cases i
      case zero   => simp [ha]
      case succ i => simp [← ht i (by omega), Nat.add_assoc, Nat.add_comm 1]
    case mpr =>
      rintro ⟨hl, h⟩
      cases l with
      | nil => simp at hl
      | cons a t =>
        have ha : f start = some a := by simpa using h 0 (by omega)
        have ht : (List.range' (start + 1) n).mapM f = some t := by
          refine hi.mpr ⟨by simpa using hl, fun i hlt => ?_⟩
          have := h (i + 1) (by omega)
          simpa [Nat.add_assoc, Nat.add_comm 1] using this
        simp [ha, ht]

theorem mapM_range'_append {f : ℕ → Option α} (start a b : ℕ) :
    (List.range' start (a + b)).mapM f = ((List.range' start a).mapM f).bind fun l₁ =>
      ((List.range' (start + a) b).mapM f).map fun l₂ => l₁ ++ l₂ := by
  rw [← List.range'_append_1, List.mapM_append]
  cases (List.range' start a).mapM f with
  | none   => rfl
  | some l => exact (Option.map_eq_bind ..).symm

theorem mapM_range'_eq_none {f : ℕ → Option α} {start n i : ℕ} (hi : i < n)
    (h : f (start + i) = none) : (List.range' start n).mapM f = none := by
  by_contra hc
  have ⟨l, hl⟩ := Option.ne_none_iff_exists'.mp hc
  have ⟨hn, hs⟩ := mapM_range'_eq_some_iff.mp hl
  have := hs i hi
  rw [h, List.getElem?_eq_getElem (by omega)] at this
  contradiction

-- Reading a list position by position gives a subslice of it, if all of the subslice is there.
theorem mapM_range'_getElem? {l : List α} {off n : ℕ} (f : ℕ → Option α) (start : ℕ)
    (h : ∀ i, i < n → f (start + i) = l[off + i]?) :
    0 < n → (List.range' start n).mapM f = getRange l off n := by
  intro h₀
  by_cases hl : off + n ≤ l.length
  case pos =>
    rw [getRange_eq hl, mapM_range'_eq_some_iff]
    refine ⟨length_subslice_of_le hl, fun i hi => ?_⟩
    rw [h i hi, getElem?_subslice_of_lt hi]
  case neg =>
    rw [getRange, if_neg hl]
    refine mapM_range'_eq_none (i := n - 1) (by omega) ?_
    rw [h _ (by omega), List.getElem?_eq_none (by omega)]

end Rust
