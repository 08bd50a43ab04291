import Latent.Source.Vdisk.Flat
import Latent.Source.Vdisk.Written

open Rust Bytes

namespace Latent

-- A disk that is written as a version 3 image without a backing file: the header in the first cluster,
-- then the L1 table, the L2 tables and the clusters that are kept.
structure Qcow2Image where
  bits : ℕ
  disk : Sparse
  bits_mem : 9 ≤ bits ∧ bits ≤ 21
  unit_eq  : disk.unit = 2 ^ bits

namespace Qcow2Image

open Vdisk Qcow2Source

-- The flag of a cluster that no snapshot shares.
def COPIED : ℕ :=
  2 ^ 63

def l2Entries (i : Qcow2Image) : ℕ :=
  i.disk.unit / 8

def tables (i : Qcow2Image) : ℕ :=
  i.disk.count ⌈/⌉ i.l2Entries

def l2At (i : Qcow2Image) : ℕ :=
  i.disk.unit * (1 + 8 * i.tables ⌈/⌉ i.disk.unit)

def dataAt (i : Qcow2Image) : ℕ :=
  i.l2At + i.disk.unit * i.tables

def l1Entry (i : Qcow2Image) (table : ℕ) : ℕ :=
  COPIED + (i.l2At + i.disk.unit * table)

def l2Entry (i : Qcow2Image) (cluster : ℕ) : ℕ :=
  if cluster < i.disk.count ∧ i.disk.keep cluster = true then
    COPIED + (i.dataAt + i.disk.unit * i.disk.rank cluster)
  else
    0

def l1 (i : Qcow2Image) : Bytes :=
  (List.range i.tables).flatMap fun table => toBE 8 (i.l1Entry table)

def l2 (i : Qcow2Image) : Bytes :=
  (List.range (i.l2Entries * i.tables)).flatMap fun cluster => toBE 8 (i.l2Entry cluster)

def pieces (i : Qcow2Image) : List (ℕ × Bytes) := [
  (0, MAGIC), (4, toBE 4 3), (20, toBE 4 i.bits), (24, toBE 8 i.disk.flat.length), (36, toBE 4 i.tables),
  (40, toBE 8 i.disk.unit), (i.disk.unit, i.l1), (i.l2At, i.l2), (i.dataAt, i.disk.stored)
]

def size (i : Qcow2Image) : ℕ :=
  i.dataAt + i.disk.stored.length

def write (i : Qcow2Image) : Bytes :=
  container i.size i.pieces

-- The sizes and addresses have room in their fields.
structure Fits (i : Qcow2Image) : Prop where
  size_lt   : i.size < 2 ^ 56
  flat_lt   : i.disk.flat.length < 2 ^ 64
  tables_lt : i.tables < 2 ^ 32

variable {i : Qcow2Image} {content : Bytes}

theorem unit_dvd (i : Qcow2Image) : 512 ∣ i.disk.unit :=
  i.unit_eq ▸ Nat.pow_dvd_pow 2 i.bits_mem.1

theorem unit_eq_mul (i : Qcow2Image) : i.disk.unit = 8 * i.l2Entries := by
  have := i.unit_dvd
  rw [l2Entries]
  omega

theorem l2Entries_pos (i : Qcow2Image) : 0 < i.l2Entries := by
  have := i.unit_eq_mul
  have := i.disk.unit_pos
  omega

theorem length_l1 (i : Qcow2Image) : i.l1.length = 8 * i.tables :=
  length_table fun _ _ => length_toBE

theorem length_l2 (i : Qcow2Image) : i.l2.length = i.disk.unit * i.tables := by
  rw [i.unit_eq_mul, Nat.mul_assoc]
  exact length_table fun _ _ => length_toBE

-- The L1 table ends where the L2 tables start.
theorem l1_end (i : Qcow2Image) : i.disk.unit + 8 * i.tables ≤ i.l2At := by
  rw [l2At, Nat.mul_add, Nat.mul_one]
  exact Nat.add_le_add_left (le_mul_ceilDiv _ i.disk.unit_pos) _

theorem laid (i : Qcow2Image) : Laid i.size i.pieces := by
  have hu := Nat.le_of_dvd i.disk.unit_pos i.unit_dvd
  have hl1 := i.l1_end
  have hdata : i.dataAt = i.l2At + i.l2.length := by rw [dataAt, length_l2]
  have h : Ascending i.size 0 i.pieces := by
    simp only [pieces, Ascending, length_toBE, i.length_l1, MAGIC, List.length_cons, List.length_nil]
    simp only [size]
    omega
  exact h.laid

-- What of the header no piece is put into.
theorem misses_header {pos width : ℕ}
    (h : 8 ≤ pos ∧ pos + width ≤ 20 ∨ 32 ≤ pos ∧ pos + width ≤ 36 ∨ 48 ≤ pos ∧ pos + width ≤ 512) :
    ∀ p ∈ i.pieces, Misses pos width p := by
  have hu := Nat.le_of_dvd i.disk.unit_pos i.unit_dvd
  have hl1 := i.l1_end
  have hdata : i.l2At ≤ i.dataAt := Nat.le_add_right ..
  simp only [pieces, List.forall_mem_cons, List.not_mem_nil, false_implies, implies_true, and_true, Misses,
    length_toBE, MAGIC, List.length_cons, List.length_nil]
  omega

section

variable [OverflowChecks] {inner : Source}

theorem open_write (hc : inner.Conforming i.write) (hf : i.Fits) : ∃ s, Qcow2Source.open inner = .ok s ∧
    s.inner = inner ∧ s.clusterSize = i.disk.unit ∧ s.l1Offset.toNat = i.disk.unit ∧ s.l1Size.toNat = i.tables ∧
    s.virtualSize.toNat = i.disk.flat.length := by
  have hl := i.laid
  have hu := Nat.le_of_dvd i.disk.unit_pos i.unit_dvd
  have hend : 512 ≤ i.size := by
    have hw := hl.within (i.disk.unit, i.l1) (by simp [pieces])
    dsimp only at hw
    omega
  have ⟨hlo, hhi⟩ := i.bits_mem
  have hbits : i.bits < 2 ^ 32 := by omega
  have hunit : i.disk.unit < 2 ^ 64 := i.unit_eq ▸ Nat.pow_lt_pow_right (by decide) (by omega)
  have hmagic : (0, MAGIC) ∈ i.pieces := by simp [pieces]
  have magic : inner.readExactAt 0 4 = .ok MAGIC := readExactAt_piece hc hl hmagic
  have version : beU32 inner 4 = .ok 3 := readField_be hc hl (by decide) (by simp [pieces]) (by decide)
  have backing : beU64 inner 8 = .ok 0 := readField_zeros hc hl (by decide) (misses_header (by omega)) (by omega)
  have encryption : beU32 inner 32 = .ok 0 :=
    readField_zeros hc hl (by decide) (misses_header (by omega)) (by omega)
  have snapshots : beU32 inner 60 = .ok 0 :=
    readField_zeros hc hl (by decide) (misses_header (by omega)) (by omega)
  have bits : beU32 inner 20 = .ok (.ofNat i.bits) :=
    readField_be hc hl (by decide) (by simp [pieces]) (by omega)
  have size : beU64 inner 24 = .ok (.ofNat i.disk.flat.length) :=
    readField_be hc hl (by decide) (by simp [pieces]) hf.flat_lt
  have l1Size : beU32 inner 36 = .ok (.ofNat i.tables) :=
    readField_be hc hl (by decide) (by simp [pieces]) hf.tables_lt
  have l1Offset : beU64 inner 40 = .ok (.ofNat i.disk.unit) :=
    readField_be hc hl (by decide) (by simp [pieces]) hunit
  have hnat : (UInt32.ofNat i.bits).toNat = i.bits := UInt32.toNat_ofNat_of_lt' hbits
  have hmem : 9 ≤ (UInt32.ofNat i.bits).toNat ∧ (UInt32.ofNat i.bits).toNat ≤ 21 := by
    rw [hnat]
    exact i.bits_mem
  simp only [Qcow2Source.open, magic, version, backing, encryption, snapshots, bits, size, l1Size, l1Offset,
    Exec.ok_bind]
  rw [Exec.errIf_neg (by decide), Exec.errIf_neg (by decide), Exec.errIf_neg (by decide), Exec.errIf_neg (by decide),
    Exec.errIf_neg (by decide)]
  simp only [Exec.ok_bind, dif_pos hmem]
  refine ⟨_, rfl, rfl, ?_, ?_, ?_, ?_⟩
  · exact (congrArg (2 ^ ·) hnat).trans i.unit_eq.symm
  · exact UInt64.toNat_ofNat_of_lt' hunit
  · exact UInt32.toNat_ofNat_of_lt' hf.tables_lt
  · exact UInt64.toNat_ofNat_of_lt' hf.flat_lt

end

-- Both masks look at the address alone, not at the flag above it.
theorem offset_of_copied {n : ℕ} (hd : 512 ∣ n) (h₀ : 0 < n) (hn : n < 2 ^ 56) :
    UInt64.ofNat (COPIED + n) &&& OFFSET_MASK = .ofNat n ∧ UInt64.ofNat (COPIED + n) &&& L2_COMPRESSED = 0 ∧
      UInt64.ofNat n ≠ 0 ∧ (UInt64.ofNat n).toNat = n := by
  have hlt : COPIED + n < 2 ^ 64 := by
    rw [COPIED]
    omega
  have hm : OFFSET_MASK.toNat = (2 ^ 47 - 1) <<< 9 := rfl
  have hc : L2_COMPRESSED.toNat = (2 ^ 1 - 1) <<< 62 := rfl
  have ht : (UInt64.ofNat n).toNat = n := UInt64.toNat_ofNat_of_lt' (Nat.lt_trans hn (by decide))
  refine ⟨UInt64.toNat_inj.mp ?_, UInt64.toNat_inj.mp ?_, fun he => ?_, ht⟩
  · rw [UInt64.toNat_and, UInt64.toNat_ofNat_of_lt' hlt, hm, and_mask, COPIED, ht]
    omega
  · rw [UInt64.toNat_and, UInt64.toNat_ofNat_of_lt' hlt, hc, and_mask, COPIED, UInt64.toNat_zero]
    omega
  · rw [he, UInt64.toNat_zero] at ht
    omega

theorem unit_dvd_l2At (i : Qcow2Image) : 512 ∣ i.l2At :=
  Dvd.dvd.mul_right i.unit_dvd _

theorem unit_dvd_dataAt (i : Qcow2Image) : 512 ∣ i.dataAt :=
  Nat.dvd_add i.unit_dvd_l2At (Dvd.dvd.mul_right i.unit_dvd _)

theorem l2At_pos (i : Qcow2Image) : 0 < i.l2At :=
  Nat.lt_of_lt_of_le i.disk.unit_pos (Nat.le_of_add_right_le i.l1_end)

theorem host_lt (hf : i.Fits) {cluster : ℕ} (h : cluster < i.disk.count) (hk : i.disk.keep cluster = true) :
    i.dataAt + i.disk.unit * i.disk.rank cluster < 2 ^ 56 := by
  have hr := Nat.mul_lt_mul_of_pos_left (Sparse.rank_lt h hk) i.disk.unit_pos
  have hs := hf.size_lt
  rw [size, i.disk.length_stored] at hs
  omega

theorem table_lt (hf : i.Fits) {table : ℕ} (h : table < i.tables) : i.l2At + i.disk.unit * table < 2 ^ 56 := by
  have hm := Nat.mul_le_mul_left i.disk.unit (Nat.le_of_lt h)
  have hp := i.disk.unit_pos
  have hs := hf.size_lt
  rw [size, dataAt] at hs
  have hlt := Nat.mul_lt_mul_of_pos_left h hp
  omega

theorem l1_lookup (hf : i.Fits) {table : ℕ} (h : table < i.tables) :
    beU64? i.write (i.disk.unit + 8 * table) = some (.ofNat (i.l1Entry table)) := by
  have hp : (i.disk.unit, i.l1) ∈ i.pieces := by simp [pieces]
  have hlt := table_lt hf h
  exact field_table_be i.laid hp h (by rw [l1Entry, COPIED]; omega)

theorem l2_lookup (hf : i.Fits) {cluster : ℕ} (h : cluster < i.l2Entries * i.tables) :
    beU64? i.write (i.l2At + 8 * cluster) = some (.ofNat (i.l2Entry cluster)) := by
  have hp : (i.l2At, i.l2) ∈ i.pieces := by simp [pieces]
  refine field_table_be i.laid hp h ?_
  rw [l2Entry]
  split
  case isTrue hk =>
    have hlt := host_lt hf hk.1 hk.2
    rw [COPIED]
    omega
  case isFalse => exact Nat.two_pow_pos 64

theorem located_write {s : Qcow2Source} (hf : i.Fits) (hs : s.clusterSize = i.disk.unit)
    (ho : s.l1Offset.toNat = i.disk.unit) (hz : s.l1Size.toNat = i.tables) {cluster : ℕ}
    (h : cluster < i.disk.count) : s.located i.write cluster =
      some (if i.disk.keep cluster then some (i.dataAt + i.disk.unit * i.disk.rank cluster) else none) := by
  have he : s.l2Entries = i.l2Entries := by rw [s.l2Entries_eq, hs, l2Entries]
  have ht : cluster / i.l2Entries < i.tables := div_lt_ceilDiv i.l2Entries_pos h
  have hin : cluster < i.l2Entries * i.tables := Nat.lt_of_lt_of_le h (le_mul_ceilDiv _ i.l2Entries_pos)
  obtain ⟨htable, _, hne, hnat⟩ := offset_of_copied (Nat.dvd_add i.unit_dvd_l2At (Dvd.dvd.mul_right i.unit_dvd _))
    (Nat.add_pos_left i.l2At_pos _) (table_lt hf ht)
  have hl1 : beU64? i.write (i.disk.unit + cluster / i.l2Entries * 8) = some (.ofNat (COPIED +
      (i.l2At + i.disk.unit * (cluster / i.l2Entries)))) := by
    rw [Nat.mul_comm, l1_lookup hf ht, l1Entry]
  have hslot : i.l2At + i.disk.unit * (cluster / i.l2Entries) + cluster % i.l2Entries * 8 = i.l2At + 8 * cluster := by
    have hd := Nat.div_add_mod cluster i.l2Entries
    rw [i.unit_eq_mul, Nat.mul_assoc]
    omega
  simp only [located, he, hz, ho, if_neg (Nat.not_le.mpr ht), hl1, htable, if_neg hne, hnat, hslot,
    l2_lookup hf hin, Option.bind_eq_bind, Option.bind_some]
  cases hk : i.disk.keep cluster with
  | false => simp [l2Entry, hk]
  | true =>
    obtain ⟨hhost, hplain, hne, hnat⟩ := offset_of_copied
      (Nat.dvd_add i.unit_dvd_dataAt (Dvd.dvd.mul_right i.unit_dvd (i.disk.rank cluster)))
      (Nat.add_pos_left (Nat.lt_of_lt_of_le i.l2At_pos (Nat.le_add_right ..)) _) (host_lt hf h hk)
    have hentry : i.l2Entry cluster = COPIED + (i.dataAt + i.disk.unit * i.disk.rank cluster) := if_pos ⟨h, hk⟩
    rw [hentry, hhost, hplain, hnat, if_neg (not_not.mpr rfl), if_neg hne, if_pos rfl]

section

variable [OverflowChecks] {inner : Source}

-- The reader opens every image that has been written, over any source of it, and its tables map the disk.
theorem opens (hc : inner.Conforming i.write) (hf : i.Fits) : ∃ s, Qcow2Source.open inner = .ok s ∧
    s.inner = inner ∧ (Disk.qcow2 s).flat i.write = some i.disk.flat := by
  obtain ⟨s, ho, hi, hs, hl1, hz, hv⟩ := open_write hc hf
  refine ⟨s, ho, hi, Disk.flat_eq_some_iff.mpr {
    length_eq := hv.symm
    walk_eq   := by
      intro x hx
      rw [Disk.walk, Qcow2Source.walk_eq_walkUnit, hs]
      refine walkUnit_stored (fun cluster hlt => located_write hf hs hl1 hz hlt) ?_ (hv ▸ hx)
      exact subslice_container i.laid (by simp [pieces])
  }⟩

theorem qcow2_reads_back (hc : inner.Conforming i.write) (hf : i.Fits) : ∃ s, Qcow2Source.open inner = .ok s ∧
    (Disk.qcow2 s).toSource.Conforming i.disk.flat := by
  obtain ⟨s, ho, hi, hflat⟩ := opens hc hf
  have hc' : s.inner.Conforming i.write := hi.symm ▸ hc
  exact ⟨s, ho, Disk.conforming hc' hflat⟩

end

section

attribute [local instance] OverflowChecks.on

-- Two clusters, of which the first is left out and the second is not full.
def holed : Qcow2Image where
  bits := 9
  disk := .ofFlat (zeros 512 ++ [7]) (show 0 < 512 by decide)
  bits_mem := by decide
  unit_eq  := rfl

theorem size_holed : holed.size = 2048 := by
  decide +kernel

theorem length_holed : holed.write.length < 2 ^ 64 := by
  rw [write, length_container holed.laid, size_holed]
  decide

theorem holed_fits : holed.Fits where
  size_lt   := by rw [size_holed]; decide
  flat_lt   := by decide +kernel
  tables_lt := by decide +kernel

theorem qcow2_reads_back_holed : ∃ s, Qcow2Source.open (rawSource holed.write) = .ok s ∧
    (Disk.qcow2 s).toSource.Conforming (zeros 512 ++ [7]) :=
  qcow2_reads_back (i := holed) (rawSource_conforming length_holed) holed_fits

end

end Qcow2Image
end Latent
