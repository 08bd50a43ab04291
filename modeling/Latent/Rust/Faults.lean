import Latent.Rust.Ensures
import Latent.Rust.Read

namespace Rust

variable {ε ε' σ α β γ δ : Type}

namespace Exec

-- A run next to another one that comes to something related, unless it fails. Whether the other one
-- fails as well does not matter then.
inductive OrFails (R : α → β → Prop) : Exec ε α → Exec ε β → Prop
  | ok {a : α} {b : β} : R a b → OrFails R (.ok a) (.ok b)
  | err (e : ε) (y : Exec ε β) : OrFails R (.err e) y
  | panic : OrFails R .panic .panic

-- A run that returns wherever another one does, with a related result: what fails on the way has to be
-- made up for.
def Follows (R : α → β → Prop) (x : Exec ε α) (y : Exec ε β) : Prop :=
  ∀ b, y = ok b → ∃ a, x = ok a ∧ R a b

namespace OrFails

variable {R : α → β → Prop} {S : γ → δ → Prop} {x x' y y' : Exec ε α} {f g : α → Exec ε β} {a : α}

theorem refl : (x : Exec ε α) → x.OrFails Eq x
  | .ok _  => ok rfl
  | .err e => err e _
  | .panic => panic

theorem bind {f : α → Exec ε γ} {g : α → Exec ε δ} (h : x.OrFails Eq y)
    (hf : ∀ a, y = .ok a → (f a).OrFails S (g a)) : (x >>= f).OrFails S (y >>= g) := by
  cases h with
  | ok h  =>
    cases h
    exact hf _ rfl
  | err e => exact err e _
  | panic => exact panic

theorem ite {c : Prop} [Decidable c] {x x' : Exec ε α} {y y' : Exec ε β} (h : c → x.OrFails R y)
    (h' : ¬c → x'.OrFails R y') : (if c then x else x').OrFails R (if c then y else y') := by
  split
  case isTrue hc  => exact h hc
  case isFalse hc => exact h' hc

theorem mapErr (h : x.OrFails Eq y) (k : ε → ε') : (x.mapErr k).OrFails Eq (y.mapErr k) := by
  cases h with
  | ok h  => exact ok h
  | err e => exact err (k e) _
  | panic => exact panic

theorem mapM {l : List α} (h : ∀ a ∈ l, (f a).OrFails Eq (g a)) : (l.mapM f).OrFails Eq (l.mapM g) := by
  induction l with
  | nil => exact refl _
  | cons a l hi =>
    rw [List.mapM_cons, List.mapM_cons]
    refine (h a List.mem_cons_self).bind fun _ _ => ?_
    exact (hi fun b hb => h b (List.mem_cons_of_mem _ hb)).bind fun _ _ => refl _

theorem foldlM {l : List α} {k k' : β → α → Exec ε β} {b : β} (h : ∀ b a, (k b a).OrFails Eq (k' b a)) :
    (l.foldlM k b).OrFails Eq (l.foldlM k' b) := by
  induction l generalizing b with
  | nil => exact refl _
  | cons a l hi =>
    rw [List.foldlM_cons, List.foldlM_cons]
    exact (h b a).bind fun _ _ => hi

theorem eq_ok (h : x.OrFails Eq y) (hx : x = .ok a) : y = .ok a := by
  cases h with
  | ok h  => exact h ▸ hx
  | err e => cases hx
  | panic => cases hx

-- There are two ways for it to come out.
theorem cases (h : x.OrFails Eq y) : x = y ∨ ∃ e, x = .err e := by
  cases h with
  | ok h  => exact .inl (congrArg _ h)
  | err e => exact .inr ⟨e, rfl⟩
  | panic => exact .inl rfl

end OrFails

namespace Follows

variable {R : α → β → Prop} {S : γ → δ → Prop} {x : Exec ε α} {y : Exec ε β}

theorem bind {f : α → Exec ε γ} {g : β → Exec ε δ} (h : x.Follows R y)
    (hf : ∀ a b, R a b → (f a).Follows S (g b)) : (x >>= f).Follows S (y >>= g) := by
  intro d hd
  have ⟨b, hb, hd⟩ := bind_eq_ok.mp hd
  have ⟨a, ha, hr⟩ := h b hb
  have ⟨c, hc, hs⟩ := hf a b hr d hd
  exact ⟨c, by rw [ha, ok_bind, hc], hs⟩

-- Where the first part is the same.
theorem same {z : Exec ε γ} {f : γ → Exec ε α} {g : γ → Exec ε β} (hf : ∀ c, z = ok c → (f c).Follows R (g c)) :
    (z >>= f).Follows R (z >>= g) := by
  intro b hb
  have ⟨c, hc, hb⟩ := bind_eq_ok.mp hb
  rw [hc]
  exact hf c hc b hb

end Follows
end Exec

-- Where the reads may fail, so may the loop, and it comes to nothing else instead.
theorem Reader.fold_orFails {r r' : Reader σ ε α} {f : β → List α → β} {len fuel : ℕ} {s : σ} {b : β}
    (h : ∀ s, (r.read len s).OrFails Eq (r'.read len s)) :
    r.fold len f fuel s b = r'.fold len f fuel s b ∨ ∃ e, r.fold len f fuel s b = some (.err e) := by
  induction fuel generalizing s b with
  | zero => exact .inl rfl
  | succ fuel hi =>
    rw [fold, fold]
    rcases (h s).cases with he | ⟨e, he⟩
    · rw [he]
      cases r'.read len s with
      | panic => exact .inl rfl
      | err e => exact .inl rfl
      | ok p  =>
        dsimp only
        split
        case isTrue  => exact .inl rfl
        case isFalse =>
          split
          case isTrue  => exact .inl rfl
          case isFalse => exact hi
    · rw [he]
      exact .inr ⟨e, rfl⟩

end Rust
