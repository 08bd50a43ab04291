import Latent.Rust.Slice

namespace Rust

variable {α β : Type} {l piece : List α} {pieces : List (ℕ × List α)} {off len n pos size i : ℕ}

-- Pieces that are copied into a list one after the other, each one to its position.
def putAll (l : List α) (pieces : List (ℕ × List α)) : List α :=
  pieces.foldl (fun l p => put l p.1 p.2) l

-- A piece that has nothing in the `len` elements from `off` on.
def Misses (off len : ℕ) (p : ℕ × List α) : Prop :=
  off + len ≤ p.1 ∨ p.1 + p.2.length ≤ off

-- Pieces that have room in `n` elements and do not overlap.
structure Laid (n : ℕ) (pieces : List (ℕ × List α)) : Prop where
  within : ∀ p ∈ pieces, p.1 + p.2.length ≤ n
  apart  : pieces.Pairwise fun p q => Misses p.1 p.2.length q

-- Pieces in the order of their positions, none of which is before `start`.
def Ascending (n : ℕ) : (start : ℕ) → List (ℕ × List α) → Prop
  | start, []          => start ≤ n
  | start, p :: pieces => start ≤ p.1 ∧ Ascending n (p.1 + p.2.length) pieces

theorem Ascending.bounds {start : ℕ} (h : Ascending n start pieces) :
    start ≤ n ∧ ∀ p ∈ pieces, start ≤ p.1 ∧ p.1 + p.2.length ≤ n := by
  induction pieces generalizing start with
  | nil => exact ⟨h, by simp⟩
  | cons p pieces hi =>
    obtain ⟨hs, h⟩ := h
    obtain ⟨hn, hb⟩ := hi h
    refine ⟨by omega, fun q hq => ?_⟩
    rcases List.mem_cons.mp hq with rfl | hq
    · exact ⟨hs, hn⟩
    · exact ⟨Nat.le_trans (by omega) (hb q hq).1, (hb q hq).2⟩

-- Nothing overlaps what starts after it has ended.
theorem Ascending.laid {start : ℕ} (h : Ascending n start pieces) : Laid n pieces := by
  refine ⟨fun p hp => (h.bounds.2 p hp).2, ?_⟩
  induction pieces generalizing start with
  | nil => exact .nil
  | cons p pieces hi =>
    obtain ⟨_, h⟩ := h
    exact .cons (fun q hq => .inl (h.bounds.2 q hq).1) (hi h)

theorem length_putAll (h : ∀ p ∈ pieces, p.1 + p.2.length ≤ l.length) : (putAll l pieces).length = l.length := by
  induction pieces generalizing l with
  | nil => rfl
  | cons p pieces hi =>
    have hl : (put l p.1 p.2).length = l.length := length_put (h p List.mem_cons_self)
    rw [putAll, List.foldl_cons, ← hl]
    exact hi fun q hq => hl ▸ h q (List.mem_cons_of_mem _ hq)

-- What all pieces miss is as before.
theorem subslice_putAll_of_misses (h : ∀ p ∈ pieces, p.1 + p.2.length ≤ l.length)
    (hm : ∀ p ∈ pieces, Misses off len p) : subslice (putAll l pieces) off len = subslice l off len := by
  induction pieces generalizing l with
  | nil => rfl
  | cons p pieces hi =>
    have hp := h p List.mem_cons_self
    have hl : (put l p.1 p.2).length = l.length := length_put hp
    rw [putAll, List.foldl_cons, ← subslice_put_of_disjoint hp (hm p List.mem_cons_self)]
    exact hi (fun q hq => hl ▸ h q (List.mem_cons_of_mem _ hq)) fun q hq => hm q (List.mem_cons_of_mem _ hq)

-- Each piece is where it has been copied to.
theorem subslice_putAll (h : Laid l.length pieces) (hp : (pos, piece) ∈ pieces) :
    subslice (putAll l pieces) pos piece.length = piece := by
  induction pieces generalizing l with
  | nil => cases hp
  | cons p pieces hi =>
    have hw := h.within p List.mem_cons_self
    have hl : (put l p.1 p.2).length = l.length := length_put hw
    have hrest : Laid (put l p.1 p.2).length pieces := {
      within := fun q hq => hl ▸ h.within q (List.mem_cons_of_mem _ hq)
      apart  := (List.pairwise_cons.mp h.apart).2
    }
    rw [putAll, List.foldl_cons]
    rcases List.mem_cons.mp hp with rfl | hp
    · exact (subslice_putAll_of_misses hrest.within (List.pairwise_cons.mp h.apart).1).trans (subslice_put_self hw)
    · exact hi hrest hp

-- A part of a piece.
theorem subslice_putAll_part (h : Laid l.length pieces) (hp : (pos, piece) ∈ pieces)
    (hle : off + len ≤ piece.length) : subslice (putAll l pieces) (pos + off) len = subslice piece off len := by
  rw [← subslice_subslice hle, subslice_putAll h hp]

-- One of the records of a table, all of which have one size.
theorem subslice_flatMap {xs : List β} {f : β → List α} {x : β} (h : ∀ x ∈ xs, (f x).length = size)
    (hi : xs[i]? = some x) : subslice (xs.flatMap f) (size * i) size = f x := by
  induction xs generalizing i with
  | nil => simp at hi
  | cons y xs hind =>
    have hy := h y List.mem_cons_self
    cases i with
    | zero =>
      cases hi
      rw [List.flatMap_cons, Nat.mul_zero, subslice_append_take hy]
    | succ i =>
      rw [List.flatMap_cons, Nat.mul_succ, Nat.add_comm, subslice_append_right hy]
      exact hind (fun x hx => h x (List.mem_cons_of_mem _ hx)) hi

-- A table with a record for each number below `n`.
theorem length_table {f : ℕ → List α} (h : ∀ i < n, (f i).length = size) :
    ((List.range n).flatMap f).length = size * n := by
  rw [length_flatMap_of_eq fun i hi => h i (List.mem_range.mp hi), List.length_range]

theorem subslice_table {f : ℕ → List α} (h : ∀ i < n, (f i).length = size) (hi : i < n) :
    subslice ((List.range n).flatMap f) (size * i) size = f i :=
  subslice_flatMap (fun i hi => h i (List.mem_range.mp hi)) (List.getElem?_range hi)

end Rust
