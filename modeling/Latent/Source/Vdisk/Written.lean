import Latent.Bytes.Sparse
import Latent.Source.Vdisk.Basic

open Rust Bytes

namespace Bytes

variable {n k : ℕ}

theorem fromBE_toBE (h : n < 256 ^ k) : fromBE (toBE k n) = n := by
  rw [fromBE, toBE, List.reverse_reverse, fromLE_toLE h]

theorem subslice_zeros {off len : ℕ} (h : off + len ≤ n) : subslice (zeros n) off len = zeros len := by
  simp only [subslice, zeros, List.drop_replicate, List.take_replicate]
  congr 1
  omega

-- A mask of `w` bits from the `k`-th one on.
theorem and_mask (n k w : ℕ) : n &&& (2 ^ w - 1) <<< k = n / 2 ^ k % 2 ^ w * 2 ^ k := by
  apply Nat.eq_of_testBit_eq
  intro i
  rw [Nat.testBit_and, Nat.testBit_shiftLeft, Nat.testBit_two_pow_sub_one, ← Nat.shiftLeft_eq,
    Nat.testBit_shiftLeft, Nat.testBit_mod_two_pow, ← Nat.shiftRight_eq_div_pow, Nat.testBit_shiftRight]
  by_cases hk : k ≤ i
  case pos => simp [hk, Nat.add_sub_cancel' hk, Bool.and_comm]
  case neg => simp [hk]

end Bytes

namespace Latent.Vdisk

-- A container of `n` bytes with some pieces in it and zeros between them.
def container (n : ℕ) (pieces : List (ℕ × Bytes)) : Bytes :=
  putAll (zeros n) pieces

section

variable {n pos off width : ℕ} {pieces : List (ℕ × Bytes)} {piece : Bytes} {α : Type}

theorem length_container (h : Laid n pieces) : (container n pieces).length = n := by
  rw [container, length_putAll (by simpa using h.within), length_zeros]

theorem subslice_container (h : Laid n pieces) (hp : (pos, piece) ∈ pieces) :
    subslice (container n pieces) pos piece.length = piece :=
  subslice_putAll (by simpa using h) hp

-- A field of a piece, such as an entry of a table.
theorem field_part (decode : Bytes → α) (off : ℕ) (h : Laid n pieces) (hp : (pos, piece) ∈ pieces)
    (hle : off + width ≤ piece.length) :
    field decode width (container n pieces) (pos + off) = some (decode (subslice piece off width)) := by
  have hl := length_container h
  have hw := h.within _ hp
  dsimp only at hw
  rw [field, getRange_eq (by omega), Option.map_some, container,
    subslice_putAll_part (by simpa using h) hp hle]

-- A piece that is a field.
theorem field_piece (decode : Bytes → α) (h : Laid n pieces) (hp : (pos, piece) ∈ pieces)
    (hw : piece.length = width) :
    field decode width (container n pieces) pos = some (decode piece) := by
  have := field_part decode 0 h hp (by omega : 0 + width ≤ piece.length)
  rwa [← hw, subslice_all (Nat.le_refl _), hw, Nat.add_zero] at this

-- An entry of a piece that is a table, or a part of one.
theorem field_table_part {m k size : ℕ} {entry : ℕ → Bytes} (decode : Bytes → α) (off : ℕ)
    (h : Laid n pieces) (hp : (pos, (List.range m).flatMap entry) ∈ pieces)
    (he : ∀ k < m, (entry k).length = size) (hk : k < m) (hle : off + width ≤ size) :
    field decode width (container n pieces) (pos + (size * k + off)) =
      some (decode (subslice (entry k) off width)) := by
  have hm : size * k + size ≤ ((List.range m).flatMap entry).length := by
    rw [length_table he, ← Nat.mul_succ]
    exact Nat.mul_le_mul_left _ hk
  rw [field_part decode _ h hp (by omega), ← subslice_table he hk, subslice_subslice hle]

theorem field_table {m k : ℕ} {entry : ℕ → Bytes} (decode : Bytes → α) (h : Laid n pieces)
    (hp : (pos, (List.range m).flatMap entry) ∈ pieces) (he : ∀ k < m, (entry k).length = width) (hk : k < m) :
    field decode width (container n pieces) (pos + width * k) = some (decode (entry k)) := by
  have hf := field_table_part decode 0 h hp he hk (Nat.le_of_eq (Nat.zero_add width))
  rwa [subslice_all (Nat.le_of_eq (he k hk)), Nat.add_zero] at hf

theorem field_table_be {m k : ℕ} {number : ℕ → ℕ} {ofNat : ℕ → α} (h : Laid n pieces)
    (hp : (pos, (List.range m).flatMap fun k => toBE width (number k)) ∈ pieces) (hk : k < m)
    (hn : number k < 256 ^ width) :
    field (fun b => ofNat (fromBE b)) width (container n pieces) (pos + width * k) = some (ofNat (number k)) := by
  rw [field_table _ h hp (fun _ _ => length_toBE) hk, fromBE_toBE hn]

theorem field_table_le {m k : ℕ} {number : ℕ → ℕ} {ofNat : ℕ → α} (h : Laid n pieces)
    (hp : (pos, (List.range m).flatMap fun k => toLE width (number k)) ∈ pieces) (hk : k < m)
    (hn : number k < 256 ^ width) :
    field (fun b => ofNat (fromLE b)) width (container n pieces) (pos + width * k) = some (ofNat (number k)) := by
  rw [field_table _ h hp (fun _ _ => length_toLE) hk, fromLE_toLE hn]

-- A field that no piece has been put into.
theorem field_zeros (decode : Bytes → α) (h : Laid n pieces) (hm : ∀ p ∈ pieces, Misses pos width p)
    (hle : pos + width ≤ n) :
    field decode width (container n pieces) pos = some (decode (zeros width)) := by
  have hl := length_container h
  have hw : ∀ p ∈ pieces, p.1 + p.2.length ≤ (zeros n).length := by simpa using h.within
  rw [field, getRange_eq (by omega), Option.map_some, container, subslice_putAll_of_misses hw hm, subslice_zeros hle]

variable [OverflowChecks] {inner : Source}

theorem readField_eq {content : Bytes} {decode : Bytes → α} {v : α} (hc : inner.Conforming content) (hw : 0 < width)
    (h : field decode width content pos = some v) : readField decode width inner pos = .ok v :=
  ((readField_refines hc decode hw pos).ok_iff v).mpr h

section

variable (hc : inner.Conforming (container n pieces)) (h : Laid n pieces)

include hc h

theorem readExactAt_piece (hp : (pos, piece) ∈ pieces) : inner.readExactAt pos piece.length = .ok piece := by
  have hw := h.within _ hp
  rw [hc.readExactAt_ok (by rwa [length_container h]), subslice_container h hp]

-- A big-endian or little-endian number that is a piece of its own.
theorem readField_be {k : ℕ} {ofNat : ℕ → α} (hw : 0 < width) (hp : (pos, toBE width k) ∈ pieces)
    (hk : k < 256 ^ width) : readField (fun b => ofNat (fromBE b)) width inner pos = .ok (ofNat k) := by
  have hf := field_piece (fun b => ofNat (fromBE b)) h hp length_toBE
  rw [fromBE_toBE hk] at hf
  exact readField_eq hc hw hf

theorem readField_le {k : ℕ} {ofNat : ℕ → α} (hw : 0 < width) (hp : (pos, toLE width k) ∈ pieces)
    (hk : k < 256 ^ width) : readField (fun b => ofNat (fromLE b)) width inner pos = .ok (ofNat k) := by
  have hf := field_piece (fun b => ofNat (fromLE b)) h hp length_toLE
  rw [fromLE_toLE hk] at hf
  exact readField_eq hc hw hf

theorem readField_zeros {decode : Bytes → α} (hw : 0 < width) (hm : ∀ p ∈ pieces, Misses pos width p)
    (hle : pos + width ≤ n) :
    readField decode width inner pos = .ok (decode (zeros width)) :=
  readField_eq hc hw (field_zeros _ h hm hle)

end

end

-- Where each unit is located where it has been put, the walk finds what has been stored.
theorem walkUnit_stored {s : Sparse} {content : Bytes} {base : ℕ} {located : ℕ → Option (Option ℕ)}
    (hl : ∀ i < s.count, located i = some (if s.keep i then some (base + s.unit * s.rank i) else none))
    (hs : subslice content base s.stored.length = s.stored) {x : ℕ} (hx : x < s.flat.length) :
    walkUnit content s.unit located x = s.flat[x]? := by
  rw [walkUnit, hl _ (Sparse.lt_count hx), Option.bind_some]
  cases hk : s.keep (x / s.unit) with
  | false =>
    have hb : s.flat[x]? = some s.flat[x] := List.getElem?_eq_getElem hx
    simp [hb, s.dropped x _ hb hk]
  | true =>
    have hm := Nat.mod_lt x s.unit_pos
    have hr : s.unit * (s.rank (x / s.unit) + 1) ≤ s.unit * s.kept.length :=
      Nat.mul_le_mul_left _ (Sparse.rank_lt (Sparse.lt_count hx) hk)
    have hlt : s.unit * s.rank (x / s.unit) + x % s.unit < s.stored.length := by
      rw [s.length_stored]
      rw [Nat.mul_succ] at hr
      omega
    rw [if_pos rfl]
    dsimp only
    rw [Nat.add_assoc, ← getElem?_subslice_of_lt hlt, hs, Sparse.getElem?_stored hx hk]

end Latent.Vdisk
