import Latent.Source.Vdisk.Flat
import Latent.Source.Vdisk.Written

open Rust Bytes

namespace Latent

-- A disk that is written as a sparse extent without a descriptor: the header in the first sector, then
-- the grain directory, the grain tables and the grains that are kept.
structure VmdkImage where
  grainSectors : ℕ
  gtesPerGt    : ℕ
  capacity     : ℕ
  disk         : Sparse
  gtesPerGt_pos : 0 < gtesPerGt
  unit_eq       : disk.unit = 512 * grainSectors
  flat_eq       : disk.flat.length = 512 * capacity

namespace VmdkImage

open Vdisk VmdkSource

def tables (i : VmdkImage) : ℕ :=
  i.disk.count ⌈/⌉ i.gtesPerGt

-- The sectors of one grain table.
def gtSectors (i : VmdkImage) : ℕ :=
  4 * i.gtesPerGt ⌈/⌉ 512

-- The sectors where the grain tables and the grains start.
def gtAt (i : VmdkImage) : ℕ :=
  1 + 4 * i.tables ⌈/⌉ 512

def dataAt (i : VmdkImage) : ℕ :=
  i.gtAt + i.gtSectors * i.tables

def gdEntry (i : VmdkImage) (table : ℕ) : ℕ :=
  i.gtAt + i.gtSectors * table

def gtEntry (i : VmdkImage) (grain : ℕ) : ℕ :=
  if grain < i.disk.count ∧ i.disk.keep grain = true then
    i.dataAt + i.grainSectors * i.disk.rank grain
  else
    0

def gd (i : VmdkImage) : Bytes :=
  (List.range i.tables).flatMap fun table => toLE 4 (i.gdEntry table)

def gt (i : VmdkImage) (table : ℕ) : Bytes :=
  ((List.range i.gtesPerGt).flatMap fun slot => toLE 4 (i.gtEntry (i.gtesPerGt * table + slot))) ++
    zeros (512 * i.gtSectors - 4 * i.gtesPerGt)

def gts (i : VmdkImage) : Bytes :=
  (List.range i.tables).flatMap i.gt

def pieces (i : VmdkImage) : List (ℕ × Bytes) := [
  (0, MAGIC), (4, toLE 4 1), (8, toLE 4 3), (12, toLE 8 i.capacity), (20, toLE 8 i.grainSectors),
  (44, toLE 4 i.gtesPerGt), (56, toLE 8 1), (512, i.gd), (512 * i.gtAt, i.gts), (512 * i.dataAt, i.disk.stored)
]

def size (i : VmdkImage) : ℕ :=
  512 * i.dataAt + i.disk.stored.length

def write (i : VmdkImage) : Bytes :=
  container i.size i.pieces

-- The sizes have room in their fields, and so have the sectors that the tables point to.
structure Fits (i : VmdkImage) : Prop where
  size_le      : i.size ≤ 512 * 2 ^ 32
  flat_lt      : i.disk.flat.length < 2 ^ 64
  unit_lt      : i.disk.unit < 2 ^ 64
  gtesPerGt_lt : i.gtesPerGt < 2 ^ 32

variable {i : VmdkImage}

theorem grainSectors_pos (i : VmdkImage) : 0 < i.grainSectors := by
  have := i.disk.unit_pos
  have := i.unit_eq
  omega

theorem length_gd (i : VmdkImage) : i.gd.length = 4 * i.tables :=
  length_table fun _ _ => length_toLE

theorem length_gt (i : VmdkImage) (table : ℕ) : (i.gt table).length = 512 * i.gtSectors := by
  have hle : 4 * i.gtesPerGt ≤ 512 * i.gtSectors := le_mul_ceilDiv _ (by decide)
  rw [gt, List.length_append, length_table fun _ _ => length_toLE, length_zeros]
  omega

theorem length_gts (i : VmdkImage) : i.gts.length = 512 * (i.gtSectors * i.tables) := by
  rw [← Nat.mul_assoc]
  exact length_table fun table _ => i.length_gt table

theorem gd_end (i : VmdkImage) : 512 + 4 * i.tables ≤ 512 * i.gtAt := by
  rw [gtAt, Nat.mul_add, Nat.mul_one]
  exact Nat.add_le_add_left (le_mul_ceilDiv _ (by decide)) _

theorem laid (i : VmdkImage) : Laid i.size i.pieces := by
  have hgd := i.gd_end
  have hdata : 512 * i.dataAt = 512 * i.gtAt + 512 * (i.gtSectors * i.tables) := by rw [dataAt, Nat.mul_add]
  have h : Ascending i.size 0 i.pieces := by
    simp only [pieces, Ascending, length_toLE, i.length_gd, i.length_gts, MAGIC, List.length_cons, List.length_nil]
    simp only [size]
    omega
  exact h.laid

-- Where the place of a descriptor would be no piece is put.
theorem misses_descriptor {pos width : ℕ} (h : 28 ≤ pos ∧ pos + width ≤ 44) : ∀ p ∈ i.pieces, Misses pos width p := by
  have hgd := i.gd_end
  have hdata : i.gtAt ≤ i.dataAt := Nat.le_add_right ..
  simp only [pieces, List.forall_mem_cons, List.not_mem_nil, false_implies, implies_true, and_true, Misses,
    length_toLE, MAGIC, List.length_cons, List.length_nil]
  omega

section

variable [OverflowChecks] {inner : Source}

theorem open_write (hc : inner.Conforming i.write) (hf : i.Fits) : ∃ s, VmdkSource.open inner = .ok s ∧
    s.inner = inner ∧ s.grainBytes = i.disk.unit ∧ s.gtesPerGt.toNat = i.gtesPerGt ∧ s.gdOffset.toNat = 1 ∧
    s.virtualSize = i.disk.flat.length := by
  have hl := i.laid
  have hg := i.grainSectors_pos
  have hu := i.unit_eq ▸ hf.unit_lt
  have hv := i.flat_eq ▸ hf.flat_lt
  have hend : 512 ≤ i.size := by
    have hw := hl.within (512, i.gd) (by simp [pieces])
    dsimp only at hw
    omega
  have hmagic : (0, MAGIC) ∈ i.pieces := by simp [pieces]
  have magic : inner.readExactAt 0 4 = .ok MAGIC := readExactAt_piece hc hl hmagic
  have flags : leU32 inner 8 = .ok 3 := readField_le hc hl (by decide) (by simp [pieces]) (by decide)
  have capacity : leU64 inner 12 = .ok (.ofNat i.capacity) :=
    readField_le hc hl (by decide) (by simp [pieces]) (by omega)
  have sectors : leU64 inner 20 = .ok (.ofNat i.grainSectors) :=
    readField_le hc hl (by decide) (by simp [pieces]) (by omega)
  have offset : leU64 inner 28 = .ok 0 :=
    readField_zeros hc hl (by decide) (misses_descriptor (by omega)) (by omega)
  have size : leU64 inner 36 = .ok 0 :=
    readField_zeros hc hl (by decide) (misses_descriptor (by omega)) (by omega)
  have gtes : leU32 inner 44 = .ok (.ofNat i.gtesPerGt) :=
    readField_le hc hl (by decide) (by simp [pieces]) hf.gtesPerGt_lt
  have gd : leU64 inner 56 = .ok 1 := readField_le hc hl (by decide) (by simp [pieces]) (by decide)
  have hcapacity : (UInt64.ofNat i.capacity).toNat = i.capacity :=
    UInt64.toNat_ofNat_of_lt' (show i.capacity < 2 ^ 64 by omega)
  have hsectors : (UInt64.ofNat i.grainSectors).toNat = i.grainSectors :=
    UInt64.toNat_ofNat_of_lt' (show i.grainSectors < 2 ^ 64 by omega)
  have hgtes : (UInt32.ofNat i.gtesPerGt).toNat = i.gtesPerGt := UInt32.toNat_ofNat_of_lt' hf.gtesPerGt_lt
  have hne : UInt64.ofNat i.grainSectors ≠ 0 ∧ UInt32.ofNat i.gtesPerGt ≠ 0 ∧ (1 : UInt64) ≠ 0 := by
    refine ⟨fun he => ?_, fun he => ?_, by decide⟩
    · rw [he, UInt64.toNat_zero] at hsectors
      omega
    · have := i.gtesPerGt_pos
      rw [he, UInt32.toNat_zero] at hgtes
      omega
  have hgrain : (UInt64.ofNat i.grainSectors).toNat * SECTOR = i.disk.unit := by
    rw [hsectors, i.unit_eq, SECTOR, Nat.mul_comm]
  have hflat : (UInt64.ofNat i.capacity).toNat * SECTOR = i.disk.flat.length := by
    rw [hcapacity, i.flat_eq, SECTOR, Nat.mul_comm]
  have hparent : rejectIfHasParent inner inner.identity.path (0 : UInt64).toNat (0 : UInt64).toNat = .ok () := rfl
  simp only [VmdkSource.open, magic, flags, capacity, sectors, offset, size, gtes, gd, Exec.ok_bind]
  rw [Exec.errIf_neg (by decide), Exec.errIf_neg (by decide)]
  simp only [Exec.ok_bind, dif_pos hne, if_pos (hgrain ▸ hf.unit_lt), dif_pos (hflat ▸ hf.flat_lt), hparent]
  exact ⟨_, rfl, rfl, hgrain, hgtes, rfl, hflat⟩

end

-- What a table points to lies inside the image.
theorem grain_lt (hf : i.Fits) {grain : ℕ} (h : grain < i.disk.count) (hk : i.disk.keep grain = true) :
    i.dataAt + i.grainSectors * i.disk.rank grain < 2 ^ 32 := by
  have hr := Nat.mul_lt_mul_of_pos_left (Sparse.rank_lt h hk) i.grainSectors_pos
  have hs := hf.size_le
  rw [size, i.disk.length_stored, i.unit_eq, Nat.mul_assoc] at hs
  omega

theorem gdEntry_lt (hf : i.Fits) {table : ℕ} (h : table < i.tables) : i.gdEntry table < 2 ^ 32 := by
  have hp : 0 < i.gtSectors := by
    have := le_mul_ceilDiv (4 * i.gtesPerGt) (show 0 < 512 by decide)
    have := i.gtesPerGt_pos
    rw [gtSectors]
    omega
  have hm := Nat.mul_lt_mul_of_pos_left h hp
  have hs := hf.size_le
  rw [size, dataAt] at hs
  rw [gdEntry]
  omega

theorem gd_lookup (hf : i.Fits) {table : ℕ} (h : table < i.tables) :
    leU32? i.write (512 + 4 * table) = some (.ofNat (i.gdEntry table)) := by
  have hp : (512, i.gd) ∈ i.pieces := by simp [pieces]
  exact field_table_le i.laid hp h (gdEntry_lt hf h)

theorem gt_lookup (hf : i.Fits) {grain : ℕ} (h : grain < i.disk.count) :
    leU32? i.write (512 * i.gdEntry (grain / i.gtesPerGt) + 4 * (grain % i.gtesPerGt)) =
      some (.ofNat (i.gtEntry grain)) := by
  have hp : (512 * i.gtAt, i.gts) ∈ i.pieces := by simp [pieces]
  have ht : grain / i.gtesPerGt < i.tables := div_lt_ceilDiv i.gtesPerGt_pos h
  have hm := Nat.mod_lt grain i.gtesPerGt_pos
  have hgt : 4 * i.gtesPerGt ≤ 512 * i.gtSectors := le_mul_ceilDiv _ (by decide)
  have hslot : subslice (i.gt (grain / i.gtesPerGt)) (4 * (grain % i.gtesPerGt)) 4 = toLE 4 (i.gtEntry grain) := by
    rw [gt, subslice_append_left (by rw [length_table fun _ _ => length_toLE]; omega),
      subslice_table (fun _ _ => length_toLE) hm, Nat.div_add_mod]
  have hlt : i.gtEntry grain < 256 ^ 4 := by
    rw [gtEntry]
    split
    case isTrue hk => exact grain_lt hf hk.1 hk.2
    case isFalse   => decide
  have he := field_table_part (fun b => UInt32.ofNat (fromLE b)) (4 * (grain % i.gtesPerGt)) i.laid hp
    (fun table _ => i.length_gt table) ht (show _ + 4 ≤ _ by omega)
  rw [hslot, fromLE_toLE hlt, ← Nat.add_assoc, Nat.mul_assoc, ← Nat.mul_add] at he
  exact he

theorem located_write {s : VmdkSource} (hf : i.Fits) (hs : s.gtesPerGt.toNat = i.gtesPerGt)
    (ho : s.gdOffset.toNat = 1) {grain : ℕ} (h : grain < i.disk.count) : s.located i.write grain =
      some (if i.disk.keep grain then some (512 * i.dataAt + i.disk.unit * i.disk.rank grain) else none) := by
  have ht : grain / i.gtesPerGt < i.tables := div_lt_ceilDiv i.gtesPerGt_pos h
  have hgd := gdEntry_lt hf ht
  have hnat : (UInt32.ofNat (i.gdEntry (grain / i.gtesPerGt))).toNat = i.gdEntry (grain / i.gtesPerGt) :=
    UInt32.toNat_ofNat_of_lt' hgd
  have hne : UInt32.ofNat (i.gdEntry (grain / i.gtesPerGt)) ≠ 0 := by
    intro he
    rw [he, UInt32.toNat_zero, gdEntry, gtAt] at hnat
    omega
  simp only [located, hs, ho, Nat.mul_comm _ 4, gd_lookup hf ht, Option.bind_eq_bind, Option.bind_some,
    if_neg hne, hnat, Nat.mul_comm _ 512, gt_lookup hf h]
  cases hk : i.disk.keep grain with
  | false => simp [gtEntry, hk]
  | true =>
    have hentry : i.gtEntry grain = i.dataAt + i.grainSectors * i.disk.rank grain := if_pos ⟨h, hk⟩
    have hnat : (UInt32.ofNat (i.gtEntry grain)).toNat = i.gtEntry grain :=
      UInt32.toNat_ofNat_of_lt' (hentry ▸ grain_lt hf h hk)
    have hne : UInt32.ofNat (i.gtEntry grain) ≠ 0 := by
      intro he
      rw [he, UInt32.toNat_zero, hentry, dataAt, gtAt] at hnat
      omega
    rw [if_neg hne, hnat, hentry, if_pos rfl, Nat.mul_add, i.unit_eq, Nat.mul_assoc]

section

variable [OverflowChecks] {inner : Source}

-- The reader opens every extent that has been written, over any source of it, and its tables map the disk.
theorem opens (hc : inner.Conforming i.write) (hf : i.Fits) : ∃ s, VmdkSource.open inner = .ok s ∧
    s.inner = inner ∧ (Disk.vmdk s).flat i.write = some i.disk.flat := by
  obtain ⟨s, ho, hi, hs, hg, hd, hv⟩ := open_write hc hf
  refine ⟨s, ho, hi, Disk.flat_eq_some_iff.mpr {
    length_eq := hv.symm
    walk_eq   := by
      intro x hx
      rw [Disk.walk, VmdkSource.walk_eq_walkUnit, hs]
      refine walkUnit_stored (fun grain hlt => located_write hf hg hd hlt) ?_ (hv ▸ hx)
      exact subslice_container i.laid (by simp [pieces])
  }⟩

theorem vmdk_reads_back (hc : inner.Conforming i.write) (hf : i.Fits) : ∃ s, VmdkSource.open inner = .ok s ∧
    (Disk.vmdk s).toSource.Conforming i.disk.flat := by
  obtain ⟨s, ho, hi, hflat⟩ := opens hc hf
  have hc' : s.inner.Conforming i.write := hi.symm ▸ hc
  exact ⟨s, ho, Disk.conforming hc' hflat⟩

end

section

attribute [local instance] OverflowChecks.on

-- Two grains, of which the first is left out.
def holed : VmdkImage where
  grainSectors := 1
  gtesPerGt    := 2
  capacity     := 2
  disk         := .ofFlat (zeros 512 ++ List.replicate 512 7) (Nat.two_pow_pos 9)
  gtesPerGt_pos := Nat.succ_pos _
  unit_eq       := rfl
  flat_eq       := by decide +kernel

theorem vmdk_reads_back_holed : ∃ s, VmdkSource.open (rawSource holed.write) = .ok s ∧
    (Disk.vmdk s).toSource.Conforming (zeros 512 ++ List.replicate 512 7) := by
  have hs : holed.size = 2048 := by decide +kernel
  have hl : holed.write.length < 2 ^ 64 := by rw [write, length_container holed.laid, hs]; decide
  exact vmdk_reads_back (i := holed) (rawSource_conforming hl) {
    size_le      := by rw [hs]; decide
    flat_lt      := by decide +kernel
    unit_lt      := by decide
    gtesPerGt_lt := by decide
  }

end

end VmdkImage
end Latent
