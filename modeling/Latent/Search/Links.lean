import Mathlib.Data.List.Chain
import Mathlib.Data.List.Nodup

namespace Links

variable {α : Type} (next : α → Option α)

-- The vertices met from `a` on where every vertex has at most one successor, but no more than `fuel`.
def walk : (fuel : ℕ) → α → List α
  | 0, _        => []
  | fuel + 1, a => a :: match next a with
    | some b => walk fuel b
    | none   => []

-- The vertex that `n` edges lead to.
def after : (n : ℕ) → α → Option α
  | 0, a     => some a
  | n + 1, a => (next a).bind (after n)

variable {next} {a b : α} {fuel n m i : ℕ} {l : List α}

theorem after_add : after next (n + m) a = (after next n a).bind (after next m) := by
  induction n generalizing a with
  | zero => simp [after]
  | succ n hi =>
    rw [Nat.add_right_comm, after, after]
    cases next a with
    | none   => rfl
    | some b => exact hi

theorem after_add_of (h : after next n a = some b) : after next (n + m) a = after next m b := by
  rw [after_add, h, Option.bind_some]

theorem walk_of_next (h : next a = some b) : walk next (fuel + 1) a = a :: walk next fuel b := by
  rw [walk, h]

theorem getElem?_walk : (walk next fuel a)[i]? = if i < fuel then after next i a else none := by
  induction fuel generalizing a i with
  | zero => simp [walk]
  | succ fuel hi =>
    cases i with
    | zero   => simp [walk, after]
    | succ i =>
      simp only [walk, after, List.getElem?_cons_succ, Nat.add_lt_add_iff_right]
      cases next a with
      | none   => simp
      | some b => exact hi

-- A cycle that a walk from `a` runs into and closes within its first `fuel` vertices.
def HasCycle (next : α → Option α) (fuel : ℕ) (a : α) : Prop :=
  ∃ n m b, after next n a = some b ∧ 0 < m ∧ n + m < fuel ∧ after next m b = some b

-- A walk meets a vertex twice exactly when it goes around a cycle.
theorem nodup_walk_iff : (walk next fuel a).Nodup ↔ ¬HasCycle next fuel a := by
  rw [← not_iff_not, not_not]
  constructor
  case mp =>
    intro h
    simp only [List.nodup_iff_getElem?_ne_getElem?, not_forall, not_not] at h
    obtain ⟨i, j, hij, hj, he⟩ := h
    have hf : j < fuel := by
      by_contra hf
      have := List.getElem?_eq_getElem hj
      rw [getElem?_walk, if_neg hf] at this
      cases this
    rw [getElem?_walk, getElem?_walk, if_pos (hij.trans hf), if_pos hf] at he
    have hs : ∃ b, after next j a = some b := by
      have := List.getElem?_eq_getElem hj
      rw [getElem?_walk, if_pos hf] at this
      exact ⟨_, this⟩
    obtain ⟨b, hb⟩ := hs
    refine ⟨i, j - i, b, he.trans hb, Nat.sub_pos_of_lt hij, by omega, ?_⟩
    rw [← after_add_of (he.trans hb), Nat.add_sub_cancel' hij.le, hb]
  case mpr =>
    intro ⟨n, m, b, hn, hm, hf, hb⟩ h
    have h₁ : (walk next fuel a)[n]? = some b := by rw [getElem?_walk, if_pos (by omega), hn]
    have h₂ : (walk next fuel a)[n + m]? = some b := by rw [getElem?_walk, if_pos hf, after_add_of hn, hb]
    have ⟨hl, _⟩ := List.getElem?_eq_some_iff.mp h₂
    exact List.nodup_iff_getElem?_ne_getElem?.mp h n (n + m) (by omega) hl (h₁.trans h₂.symm)

theorem forall_mem_walk {p : α → Prop} (ha : p a) (hn : ∀ x y, next x = some y → p y) :
    ∀ x ∈ walk next fuel a, p x := by
  induction fuel generalizing a with
  | zero => simp [walk]
  | succ fuel hi =>
    rw [walk]
    cases h : next a with
    | none   => simpa using ha
    | some b => exact List.forall_mem_cons.mpr ⟨ha, hi (hn a b h)⟩

-- A list of vertices that are linked one to the next, with no edge out of the last one, is the walk
-- from its head.
theorem walk_eq_of_isChain (h : (a :: l).IsChain fun x y => next x = some y)
    (hl : ∀ x ∈ (a :: l).getLast?, next x = none) (hf : (a :: l).length ≤ fuel) :
    walk next fuel a = a :: l := by
  induction l generalizing a fuel with
  | nil =>
    cases fuel with
    | zero      => cases hf
    | succ fuel => simp [walk, hl a (by simp)]
  | cons b l hi =>
    cases fuel with
    | zero      => cases hf
    | succ fuel =>
      have ⟨hb, hc⟩ := List.isChain_cons_cons.mp h
      have ht := hi hc (by simpa using hl) (Nat.le_of_succ_le_succ hf)
      simp only [walk, hb, ht]

end Links
