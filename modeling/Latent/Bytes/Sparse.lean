import Latent.Bytes.Endian
import Latent.Rust.Pieces
import Mathlib.Algebra.Order.Floor.Div

open Rust

namespace Bytes

theorem le_mul_ceilDiv {unit : ℕ} (n : ℕ) (h : 0 < unit) : n ≤ unit * (n ⌈/⌉ unit) :=
  (ceilDiv_le_iff_le_mul h).mp (Nat.le_refl _)

theorem div_lt_ceilDiv {n unit x : ℕ} (hu : 0 < unit) (h : x < n) : x / unit < n ⌈/⌉ unit :=
  Nat.div_lt_of_lt_mul (Nat.lt_of_lt_of_le h (le_mul_ceilDiv n hu))

-- A flat content that is kept in units of one size. The units that are left out have nothing but zeros
-- in them.
structure Sparse where
  flat : Bytes
  unit : ℕ
  keep : ℕ → Bool
  unit_pos : 0 < unit
  dropped  : ∀ x b, flat[x]? = some b → keep (x / unit) = false → b = 0

namespace Sparse

variable {s : Sparse} {i x : ℕ}

-- How many units there are, the last one of which may not be full.
def count (s : Sparse) : ℕ :=
  s.flat.length ⌈/⌉ s.unit

-- One unit, filled up with zeros where the content has ended.
def block (s : Sparse) (i : ℕ) : Bytes :=
  let b := subslice s.flat (i * s.unit) s.unit
  b ++ zeros (s.unit - b.length)

def kept (s : Sparse) : List ℕ :=
  (List.range s.count).filter s.keep

-- How many of the units before this one are kept.
def rank (s : Sparse) (i : ℕ) : ℕ :=
  ((List.range i).filter s.keep).length

-- The units that are kept, one after the other.
def stored (s : Sparse) : Bytes :=
  s.kept.flatMap s.block

-- Any content, with the units left out that are found to have nothing in them.
def ofFlat (flat : Bytes) {unit : ℕ} (h : 0 < unit) : Sparse where
  flat     := flat
  unit     := unit
  keep i   := (subslice flat (i * unit) unit).any (· != 0)
  unit_pos := h
  dropped  := by
    intro x b hb hk
    have hm := Nat.mod_lt x h
    have hx : (subslice flat (x / unit * unit) unit)[x % unit]? = some b := by
      rw [getElem?_subslice_of_lt hm, Nat.div_add_mod', hb]
    have hz := List.any_eq_false.mp hk b (List.mem_of_getElem? hx)
    simpa using hz

theorem lt_count (h : x < s.flat.length) : x / s.unit < s.count :=
  div_lt_ceilDiv s.unit_pos h

theorem length_block (s : Sparse) (i : ℕ) : (s.block i).length = s.unit := by
  simp only [block, List.length_append, length_zeros, length_subslice]
  omega

theorem getElem?_block (h : x < s.flat.length) : (s.block (x / s.unit))[x % s.unit]? = s.flat[x]? := by
  have hm := Nat.mod_lt x s.unit_pos
  have hx := Nat.div_add_mod' x s.unit
  have hl : x % s.unit < (subslice s.flat (x / s.unit * s.unit) s.unit).length := by
    rw [length_subslice]
    omega
  rw [block, List.getElem?_append_left hl, getElem?_subslice_of_lt hm, hx]

theorem length_stored (s : Sparse) : s.stored.length = s.unit * s.kept.length :=
  length_flatMap_of_eq fun i _ => s.length_block i

theorem kept_rank (hi : i < s.count) (hk : s.keep i = true) : s.kept[s.rank i]? = some i := by
  obtain ⟨k, hc⟩ := Nat.exists_eq_add_of_lt hi
  have hr : List.range s.count = List.range i ++ i :: (List.range k).map (i + · + 1) := by
    rw [hc, Nat.add_assoc, List.range_add, List.range_succ_eq_map, List.map_cons, List.map_map]
    rfl
  rw [kept, hr, List.filter_append, List.filter_cons_of_pos hk, rank, List.getElem?_append_right (Nat.le_refl _),
    Nat.sub_self, List.getElem?_cons_zero]

theorem rank_lt (hi : i < s.count) (hk : s.keep i = true) : s.rank i < s.kept.length :=
  (List.getElem?_eq_some_iff.mp (kept_rank hi hk)).1

-- A unit's place among the ones that are kept.
theorem subslice_stored (hi : i < s.count) (hk : s.keep i = true) :
    subslice s.stored (s.unit * s.rank i) s.unit = s.block i :=
  subslice_flatMap (fun i _ => s.length_block i) (kept_rank hi hk)

theorem getElem?_stored (h : x < s.flat.length) (hk : s.keep (x / s.unit) = true) :
    s.stored[s.unit * s.rank (x / s.unit) + x % s.unit]? = s.flat[x]? := by
  have hm := Nat.mod_lt x s.unit_pos
  rw [← getElem?_subslice_of_lt hm, subslice_stored (lt_count h) hk, getElem?_block h]

end Sparse
end Bytes
