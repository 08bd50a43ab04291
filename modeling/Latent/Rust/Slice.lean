import Latent.Rust.Exec
import Mathlib.Data.List.Basic

namespace Rust

variable {ε α : Type} {l l₁ l₂ : List α} {off len : ℕ}

-- The `len` elements of `l` from position `off` on, or as many of them as there are.
def subslice (l : List α) (off len : ℕ) : List α :=
  (l.drop off).take len

@[simp] theorem subslice_len_zero : subslice l off 0 = [] := by
  simp [subslice]

theorem subslice_zero : subslice l 0 len = l.take len := by
  simp [subslice]

theorem length_subslice : (subslice l off len).length = min len (l.length - off) := by
  simp [subslice]

theorem length_subslice_of_le (h : off + len ≤ l.length) : (subslice l off len).length = len := by
  rw [length_subslice]
  omega

theorem getElem?_subslice (i : ℕ) : (subslice l off len)[i]? = if i < len then l[off + i]? else none := by
  simp [subslice, List.getElem?_take, List.getElem?_drop]

theorem getElem?_subslice_of_lt {i : ℕ} (h : i < len) : (subslice l off len)[i]? = l[off + i]? := by
  rw [getElem?_subslice, if_pos h]

theorem subslice_all (h : l.length ≤ len) : subslice l 0 len = l := by
  rw [subslice_zero, List.take_of_length_le h]

-- Asking for more than the list holds changes nothing.
theorem subslice_min : subslice l off (min len (l.length - off)) = subslice l off len := by
  apply List.ext_getElem?
  intro i
  simp only [getElem?_subslice]
  by_cases h : off + i < l.length
  · have : i < min len (l.length - off) ↔ i < len := by omega
    simp [this]
  · have : l[off + i]? = none := List.getElem?_eq_none (by omega)
    simp [this]

theorem subslice_append_subslice (a b : ℕ) :
    subslice l off a ++ subslice l (off + a) b = subslice l off (a + b) := by
  simp only [subslice, List.take_add, List.drop_drop]

theorem subslice_subslice {off' len' : ℕ} (h : off' + len' ≤ len) :
    subslice (subslice l off len) off' len' = subslice l (off + off') len' := by
  apply List.ext_getElem?
  intro i
  simp only [getElem?_subslice]
  split
  case isTrue hi => rw [if_pos (by omega), Nat.add_assoc]
  case isFalse   => rfl

theorem subslice_append_left (h : off + len ≤ l₁.length) :
    subslice (l₁ ++ l₂) off len = subslice l₁ off len := by
  apply List.ext_getElem?
  intro i
  simp only [getElem?_subslice]
  split
  case isTrue hi => rw [List.getElem?_append_left (by omega)]
  case isFalse   => rfl

theorem subslice_append_right {n : ℕ} (h : l₁.length = n) :
    subslice (l₁ ++ l₂) (n + off) len = subslice l₂ off len := by
  have hd : (l₁ ++ l₂).drop (n + off) = l₂.drop off := by
    rw [List.drop_append, List.drop_eq_nil_of_le (by omega), List.nil_append, h, Nat.add_sub_cancel_left]
  rw [subslice, hd, subslice]

-- Looking a field up in a concatenation: skip what comes before it, then take it.
theorem subslice_append_skip (h : l₁.length ≤ off) :
    subslice (l₁ ++ l₂) off len = subslice l₂ (off - l₁.length) len := by
  obtain ⟨k, rfl⟩ := Nat.exists_eq_add_of_le h
  rw [subslice_append_right rfl, Nat.add_sub_cancel_left]

theorem subslice_append_take (h : l₁.length = len) : subslice (l₁ ++ l₂) 0 len = l₁ := by
  rw [subslice_zero, ← h, List.take_left]

theorem subslice_set_of_outside {p : ℕ} {b : α} (h : p < off ∨ off + len ≤ p) :
    subslice (l.set p b) off len = subslice l off len := by
  apply List.ext_getElem?
  intro i
  simp only [getElem?_subslice]
  split
  case isTrue hi => rw [List.getElem?_set_ne (by omega)]
  case isFalse   => rfl

theorem subslice_set_of_inside {p : ℕ} {b : α} (h₁ : off ≤ p) (h₂ : p < off + len) :
    subslice (l.set p b) off len = (subslice l off len).set (p - off) b := by
  apply List.ext_getElem?
  intro i
  simp only [getElem?_subslice, List.getElem?_set, length_subslice]
  grind

-- `l[pos..pos + new.len()].copy_from_slice(new)`, where all of that lies inside `l`.
def put (l : List α) (pos : ℕ) (new : List α) : List α :=
  l.take pos ++ (new ++ l.drop (pos + new.length))

theorem put_zero (l new : List α) : put l 0 new = new ++ l.drop new.length := by
  rw [put, List.take_zero, List.nil_append, Nat.zero_add]

-- What is put into a front part of a list is put into the list.
theorem put_put_take {new : List α} {n : ℕ} (h : new.length ≤ n) (hn : n ≤ l.length) :
    put l 0 (put (l.take n) 0 new) = put l 0 new := by
  have ht : (l.take n).length = n := List.length_take_of_le hn
  have hd : l.drop new.length = (l.take n).drop new.length ++ l.drop n := by
    nth_rewrite 1 [← List.take_append_drop n l]
    rw [List.drop_append_of_le_length (by omega)]
  rw [put_zero, put_zero, put_zero, List.length_append, List.length_drop, ht, Nat.add_sub_cancel' h, hd,
    List.append_assoc]

section

variable {new : List α} {pos : ℕ} (h : pos + new.length ≤ l.length)

include h

theorem length_put : (put l pos new).length = l.length := by
  simp only [put, List.length_append, List.length_take, List.length_drop]
  omega

theorem subslice_put_self : subslice (put l pos new) pos new.length = new := by
  have ht : (l.take pos).length = pos := List.length_take_of_le (Nat.le_of_add_right_le h)
  rw [put, subslice_append_skip (Nat.le_of_eq ht), ht, Nat.sub_self, subslice_append_take rfl]

theorem subslice_put_of_disjoint (hd : off + len ≤ pos ∨ pos + new.length ≤ off) :
    subslice (put l pos new) off len = subslice l off len := by
  apply List.ext_getElem?
  intro i
  simp only [getElem?_subslice, put, List.getElem?_append, List.length_take, List.getElem?_take,
    List.getElem?_drop]
  grind

end

-- `&l[a..b]`.
def slice (l : List α) (a b : ℕ) : Exec ε (List α) :=
  if a ≤ b ∧ b ≤ l.length then .ok (subslice l a (b - a)) else .panic

theorem slice_eq {a b : ℕ} (h₁ : a ≤ b) (h₂ : b ≤ l.length) :
    (slice l a b : Exec ε (List α)) = .ok (subslice l a (b - a)) :=
  if_pos ⟨h₁, h₂⟩

-- `l.get(off..off + len)`.
def getRange (l : List α) (off len : ℕ) : Option (List α) :=
  if off + len ≤ l.length then some (subslice l off len) else none

theorem getRange_eq (h : off + len ≤ l.length) : getRange l off len = some (subslice l off len) :=
  if_pos h

-- `l.chunks_exact(n)` for a positive `n`: a rest shorter than a chunk is left out.
def chunksExact (n : ℕ) (l : List α) : List (List α) :=
  (List.range (l.length / n)).map fun i => subslice l (n * i) n

theorem length_of_mem_chunksExact {n : ℕ} {c : List α} (h : c ∈ chunksExact n l) : c.length = n := by
  have ⟨i, hi, hc⟩ := List.mem_map.mp h
  have hle : n * (i + 1) ≤ n * (l.length / n) := Nat.mul_le_mul_left _ (List.mem_range.mp hi)
  have hd := Nat.mul_div_le l.length n
  rw [Nat.mul_succ] at hle
  rw [← hc, length_subslice_of_le (by omega)]

theorem length_flatMap_of_eq {β : Type} {n : ℕ} {xs : List β} {f : β → List α}
    (h : ∀ x ∈ xs, (f x).length = n) : (xs.flatMap f).length = n * xs.length := by
  induction xs with
  | nil => rfl
  | cons x xs hi =>
    rw [List.flatMap_cons, List.length_append, h x List.mem_cons_self,
      hi fun y hy => h y (List.mem_cons_of_mem _ hy), List.length_cons, Nat.mul_succ, Nat.add_comm]

theorem chunksExact_cons {n : ℕ} {c : List α} (hn : 0 < n) (hc : c.length = n) :
    chunksExact n (c ++ l) = c :: chunksExact n l := by
  have hlen : (c ++ l).length / n = l.length / n + 1 := by
    rw [List.length_append, hc, Nat.add_comm, Nat.add_div_right _ hn]
  rw [chunksExact, hlen, List.range_succ_eq_map, List.map_cons, List.map_map, Nat.mul_zero,
    subslice_append_take hc, chunksExact]
  congr 1
  refine List.map_congr_left fun i _ => ?_
  have hi : n * (i + 1) = n + n * i := by rw [Nat.mul_succ, Nat.add_comm]
  simp only [Function.comp_def, hi]
  exact subslice_append_right hc

-- Cutting what was laid out in pieces of one size gives the pieces back.
theorem chunksExact_flatMap {β : Type} {n : ℕ} {xs : List β} {f : β → List α} (hn : 0 < n)
    (h : ∀ x ∈ xs, (f x).length = n) : chunksExact n (xs.flatMap f) = xs.map f := by
  induction xs with
  | nil => simp [chunksExact]
  | cons x xs hi =>
    rw [List.flatMap_cons, chunksExact_cons hn (h x List.mem_cons_self),
      hi fun y hy => h y (List.mem_cons_of_mem _ hy), List.map_cons]

end Rust
