import Latent.Rust.Exec
import Latent.Rust.Slice

namespace Rust

variable {σ ε α β : Type}

-- An implementation of `io::Read`. A read fills the front of a buffer of the given length, returns what
-- it has put there, and leaves the reader in a new state.
structure Reader (σ ε α : Type) where
  read : (len : ℕ) → σ → Exec ε (List α × σ)

namespace Reader

-- Reading until a read returns nothing, with one buffer of the given length, and consuming each piece.
-- The fuel bounds the number of reads: where it runs out, the loop has not returned yet.
def fold (r : Reader σ ε α) (len : ℕ) (f : β → List α → β) : (fuel : ℕ) → σ → β → Option (Exec ε β)
  | 0, _, _        => none
  | fuel + 1, s, b =>
    match r.read len s with
    | .panic       => some .panic
    | .err e       => some (.err e)
    | .ok (l, s')  =>
      if l.length = 0 then
        some (.ok b)
      else if len < l.length then
        some .panic
      else
        fold r len f fuel s' (f b l)

-- A run of reads that all return something, with everything that they return.
inductive Steps (r : Reader σ ε α) (len : ℕ) : σ → List α → σ → Prop
  | refl (s : σ) : Steps r len s [] s
  | step {s s' s'' : σ} {l l' : List α} :
    r.read len s = .ok (l, s') → 0 < l.length → l.length ≤ len → Steps r len s' l' s'' →
      Steps r len s (l ++ l') s''

-- The reader returns nothing more.
def Ends (r : Reader σ ε α) (len : ℕ) (s : σ) : Prop :=
  ∃ s', r.read len s = .ok ([], s')

variable {r : Reader σ ε α} {len fuel : ℕ} {f : β → List α → β} {s s' : σ} {b b' : β} {l l' : List α}

theorem fold_ends (h : r.Ends len s) : r.fold len f (fuel + 1) s b = some (.ok b) := by
  have ⟨s', hr⟩ := h
  simp [fold, hr]

theorem fold_step (h : r.read len s = .ok (l, s')) (h₀ : 0 < l.length) (hl : l.length ≤ len) :
    r.fold len f (fuel + 1) s b = r.fold len f fuel s' (f b l) := by
  simp only [fold, h]
  rw [if_neg (Nat.pos_iff_ne_zero.mp h₀), if_neg (Nat.not_lt_of_le hl)]

-- The loop returns if the reads that return something come to less than the fuel.
theorem fold_isSome (h : ∀ l s', r.Steps len s l s' → l.length < fuel) : (r.fold len f fuel s b).isSome := by
  induction fuel generalizing s b with
  | zero => exact absurd (h [] s (.refl s)) (Nat.not_lt_zero _)
  | succ fuel hi =>
    rw [fold]
    split
    case h_1 => rfl
    case h_2 => rfl
    case h_3 l s' hr =>
      split
      case isTrue => rfl
      case isFalse h₀ =>
        split
        case isTrue => rfl
        case isFalse hl =>
          refine hi fun l' s'' hs => ?_
          have hlt := h _ _ (.step hr (Nat.pos_of_ne_zero h₀) (Nat.le_of_not_lt hl) hs)
          rw [List.length_append] at hlt
          omega

section

variable (nil : ∀ b, f b [] = b) (append : ∀ b l₁ l₂, f b (l₁ ++ l₂) = f (f b l₁) l₂)

include nil append

-- One read more than there are elements is always enough.
theorem fold_of_steps (h : r.Steps len s l s') (he : r.Ends len s') (hf : l.length < fuel) :
    r.fold len f fuel s b = some (.ok (f b l)) := by
  induction h generalizing fuel b with
  | refl =>
    obtain ⟨fuel, rfl⟩ := Nat.exists_eq_add_one_of_ne_zero (Nat.ne_zero_of_lt hf)
    rw [fold_ends he, nil]
  | step hr h₀ hl _ hi =>
    obtain ⟨fuel, rfl⟩ := Nat.exists_eq_add_one_of_ne_zero (Nat.ne_zero_of_lt hf)
    rw [List.length_append] at hf
    rw [fold_step hr h₀ hl, hi he (by omega), append]

-- What is consumed is what the reads return up to the first one that returns nothing.
theorem steps_of_fold (h : r.fold len f fuel s b = some (.ok b')) :
    ∃ l s', r.Steps len s l s' ∧ r.Ends len s' ∧ b' = f b l := by
  induction fuel generalizing s b with
  | zero => cases h
  | succ fuel hi =>
    rw [fold] at h
    split at h
    case h_1 => cases h
    case h_2 => cases h
    case h_3 l s' hr =>
      split at h
      case isTrue h₀ =>
        cases h
        rw [List.length_eq_zero_iff] at h₀
        exact ⟨[], s, .refl s, ⟨s', h₀ ▸ hr⟩, (nil b').symm⟩
      case isFalse h₀ =>
        split at h
        case isTrue  => cases h
        case isFalse hl =>
          have ⟨l', s'', hs, he, hb⟩ := hi h
          exact ⟨l ++ l', s'', .step hr (Nat.pos_of_ne_zero h₀) (Nat.le_of_not_lt hl) hs, he,
            hb.trans (append ..).symm⟩

end

-- Two loops that differ only in what they do with the pieces return in step.
theorem fold_map {γ : Type} {g : γ → List α → γ} {m : β → γ} (h : ∀ b l, m (f b l) = g (m b) l) :
    (r.fold len f fuel s b).map (m <$> ·) = r.fold len g fuel s (m b) := by
  induction fuel generalizing s b with
  | zero => rfl
  | succ fuel hi =>
    simp only [fold]
    split
    case h_1 => rfl
    case h_2 => rfl
    case h_3 l s' _ =>
      split
      case isTrue => rfl
      case isFalse =>
        split
        case isTrue  => rfl
        case isFalse => rw [hi, h]

-- A slice as a reader: what is left of it is the state.
def ofSlice : Reader (List α) Empty α where
  read len l := .ok (l.take len, l.drop len)

theorem steps_ofSlice (h : 0 < len) (l : List α) : ofSlice.Steps len l l [] := by
  induction hn : l.length using Nat.strongRecOn generalizing l with
  | ind n hi =>
    cases l with
    | nil => exact .refl []
    | cons a l =>
      have hl : ((a :: l).take len).length = min len (l.length + 1) := List.length_take
      have hs : ofSlice.Steps len ((a :: l).drop len) ((a :: l).drop len) [] :=
        hi ((a :: l).drop len).length (by rw [List.length_drop, hn]; simp at hn; omega) _ rfl
      have hr := Steps.step (r := ofSlice) (s := a :: l) rfl (by omega) (by omega) hs
      rwa [List.take_append_drop] at hr

theorem ends_ofSlice : (ofSlice : Reader _ _ α).Ends len [] :=
  ⟨[], by simp [ofSlice]⟩

end Reader
end Rust
