import Latent.Source.Vdisk.Flat
import Latent.Source.Vdisk.Written

open Rust Bytes

namespace Latent

-- A disk that is written as a dynamic disk without a parent: the file identifier, the region table, the
-- metadata, the block allocation table and the blocks that are kept.
structure VhdxImage where
  sectorSize : ℕ
  disk       : Sparse
  sectorSize_pos : 0 < sectorSize
  unit_mem       : 2 ^ 20 ≤ disk.unit ∧ disk.unit ≤ 2 ^ 28
  unit_dvd       : 2 ^ 20 ∣ disk.unit

namespace VhdxImage

open Vdisk VhdxSource

def FILE_ID : Bytes :=
  [0x76, 0x68, 0x64, 0x78, 0x66, 0x69, 0x6c, 0x65]

def REGI : Bytes :=
  [0x72, 0x65, 0x67, 0x69]

def METADATA : Bytes :=
  [0x6d, 0x65, 0x74, 0x61, 0x64, 0x61, 0x74, 0x61]

def METADATA_AT : ℕ :=
  0x100000

def BAT_AT : ℕ :=
  0x200000

def PAYLOAD_BLOCK_ZERO : ℕ :=
  2

def chunkRatio (i : VhdxImage) : ℕ :=
  max (8388608 * i.sectorSize / i.disk.unit) 1

-- The payload entries with a bitmap entry after each full run of them.
def entries (i : VhdxImage) : ℕ :=
  i.disk.count + i.disk.count / i.chunkRatio

def dataAt (i : VhdxImage) : ℕ :=
  BAT_AT + 2 ^ 20 * (8 * i.entries ⌈/⌉ 2 ^ 20)

def payloadEntry (i : VhdxImage) (block : ℕ) : ℕ :=
  if i.disk.keep block = true then
    i.dataAt + i.disk.unit * i.disk.rank block + PAYLOAD_BLOCK_FULLY_PRESENT.toNat
  else
    PAYLOAD_BLOCK_ZERO

def batEntry (i : VhdxImage) (index : ℕ) : ℕ :=
  let slot := index % (i.chunkRatio + 1)
  let block := index / (i.chunkRatio + 1) * i.chunkRatio + slot
  if slot < i.chunkRatio ∧ block < i.disk.count then i.payloadEntry block else 0

def bat (i : VhdxImage) : Bytes :=
  (List.range i.entries).flatMap fun index => toLE 8 (i.batEntry index)

def pieces (i : VhdxImage) : List (ℕ × Bytes) := [
  (0, FILE_ID),
  (REGION_TABLE, REGI), (REGION_TABLE + 8, toLE 4 2),
  (REGION_TABLE + 16, BAT_REGION), (REGION_TABLE + 32, toLE 8 BAT_AT),
  (REGION_TABLE + 48, METADATA_REGION), (REGION_TABLE + 64, toLE 8 METADATA_AT),
  (METADATA_AT, METADATA), (METADATA_AT + 10, toLE 2 3),
  (METADATA_AT + 32, FILE_PARAMETERS), (METADATA_AT + 48, toLE 4 0x10000),
  (METADATA_AT + 64, VIRTUAL_DISK_SIZE), (METADATA_AT + 80, toLE 4 0x10008),
  (METADATA_AT + 96, LOGICAL_SECTOR_SIZE), (METADATA_AT + 112, toLE 4 0x10010),
  (METADATA_AT + 0x10000, toLE 4 i.disk.unit), (METADATA_AT + 0x10008, toLE 8 i.disk.flat.length),
  (METADATA_AT + 0x10010, toLE 4 i.sectorSize),
  (BAT_AT, i.bat), (i.dataAt, i.disk.stored)
]

def size (i : VhdxImage) : ℕ :=
  i.dataAt + i.disk.stored.length

def write (i : VhdxImage) : Bytes :=
  container i.size i.pieces

-- The sizes and addresses have room in their fields.
structure Fits (i : VhdxImage) : Prop where
  size_lt       : i.size < 2 ^ 64
  flat_lt       : i.disk.flat.length < 2 ^ 64
  sectorSize_lt : i.sectorSize < 2 ^ 32

variable {i : VhdxImage}

theorem length_bat (i : VhdxImage) : i.bat.length = 8 * i.entries :=
  length_table fun _ _ => length_toLE

theorem bat_end (i : VhdxImage) : BAT_AT + 8 * i.entries ≤ i.dataAt :=
  Nat.add_le_add_left (le_mul_ceilDiv _ (by decide)) _

theorem laid (i : VhdxImage) : Laid i.size i.pieces := by
  have hbat := i.bat_end
  have h : Ascending i.size 0 i.pieces := by
    simp only [pieces, Ascending, length_toLE, i.length_bat, FILE_ID, REGI, METADATA, BAT_REGION, METADATA_REGION,
      FILE_PARAMETERS, VIRTUAL_DISK_SIZE, LOGICAL_SECTOR_SIZE, List.length_cons, List.length_nil, REGION_TABLE,
      METADATA_AT, BAT_AT] at hbat ⊢
    simp only [size]
    omega
  exact h.laid

-- Where the flags of the file parameters are no piece is put.
theorem misses_flags : ∀ p ∈ i.pieces, Misses (METADATA_AT + 0x10004) 4 p := by
  have hbat := i.bat_end
  simp only [pieces, List.forall_mem_cons, List.not_mem_nil, false_implies, implies_true, and_true, Misses,
    length_toLE, FILE_ID, REGI, METADATA, BAT_REGION, METADATA_REGION, FILE_PARAMETERS, VIRTUAL_DISK_SIZE,
    LOGICAL_SECTOR_SIZE, List.length_cons, List.length_nil, REGION_TABLE, METADATA_AT, BAT_AT] at hbat ⊢
  omega

section

variable [OverflowChecks] {inner : Source}

theorem regionTable_write (hc : inner.Conforming i.write) (path : String) :
    regionTable inner path = .ok (.ofNat BAT_AT, .ofNat METADATA_AT) := by
  have hl := i.laid
  have hregi : (REGION_TABLE, REGI) ∈ i.pieces := by simp [pieces]
  have hbat : (REGION_TABLE + 16, BAT_REGION) ∈ i.pieces := by simp [pieces]
  have hmetadata : (REGION_TABLE + 48, METADATA_REGION) ∈ i.pieces := by simp [pieces]
  have regi : inner.readExactAt 196608 4 = .ok REGI := readExactAt_piece hc hl hregi
  have count : leU32 inner 196616 = .ok 2 :=
    readField_le hc hl (by decide) (by simp [pieces, REGION_TABLE]) (by decide)
  have bat : inner.readExactAt 196624 16 = .ok BAT_REGION := readExactAt_piece hc hl hbat
  have batAt : leU64 inner 196640 = .ok (.ofNat BAT_AT) :=
    readField_le hc hl (by decide) (by simp [pieces, REGION_TABLE]) (by decide)
  have metadata : inner.readExactAt 196656 16 = .ok METADATA_REGION := readExactAt_piece hc hl hmetadata
  have metadataAt : leU64 inner 196672 = .ok (.ofNat METADATA_AT) :=
    readField_le hc hl (by decide) (by simp [pieces, REGION_TABLE]) (by decide)
  have first : regionEntry inner ⟨none, none⟩ 0 = .ok ⟨some (.ofNat BAT_AT), none⟩ := by
    simp (disch := decide) only [regionEntry, U64.add_eq, U64.mul_eq, Exec.ok_bind, REGION_TABLE, Nat.reduceAdd,
      Nat.reduceMul, bat, batAt]
    rfl
  have second : regionEntry inner ⟨some (.ofNat BAT_AT), none⟩ 1 =
      .ok ⟨some (.ofNat BAT_AT), some (.ofNat METADATA_AT)⟩ := by
    simp (disch := decide) only [regionEntry, U64.add_eq, U64.mul_eq, Exec.ok_bind, REGION_TABLE, Nat.reduceAdd,
      Nat.reduceMul, metadata, metadataAt]
    rfl
  have fold : (List.range (2 : UInt32).toNat).foldlM (regionEntry inner) ⟨none, none⟩ =
      .ok ⟨some (.ofNat BAT_AT), some (.ofNat METADATA_AT)⟩ := by
    rw [show List.range (2 : UInt32).toNat = [0, 1] from rfl, List.foldlM_cons, first, Exec.ok_bind, List.foldlM_cons,
      second, Exec.ok_bind, List.foldlM_nil]
    rfl
  simp (disch := decide) only [regionTable, U64.add_eq, Exec.ok_bind, REGION_TABLE, Nat.reduceAdd, regi, count]
  rw [Exec.errIf_neg (by decide), Exec.ok_bind, Exec.errIf_neg (by decide), Exec.ok_bind, fold]
  rfl

theorem metadata_write (hc : inner.Conforming i.write) (hf : i.Fits) (path : String) :
    Metadata.read inner METADATA_AT path =
      .ok ⟨.ofNat i.disk.unit, .ofNat i.disk.flat.length, .ofNat i.sectorSize, false⟩ := by
  have hl := i.laid
  have ⟨_, hu⟩ := i.unit_mem
  have hunit : i.disk.unit < 2 ^ 32 := by omega
  have hend : METADATA_AT + 0x10004 + 4 ≤ i.size := by
    have hw := hl.within (BAT_AT, i.bat) (by simp [pieces])
    dsimp only [BAT_AT] at hw
    rw [METADATA_AT]
    omega
  have hsig : (METADATA_AT, METADATA) ∈ i.pieces := by simp [pieces]
  have hfile : (METADATA_AT + 32, FILE_PARAMETERS) ∈ i.pieces := by simp [pieces]
  have hdisk : (METADATA_AT + 64, VIRTUAL_DISK_SIZE) ∈ i.pieces := by simp [pieces]
  have hsector : (METADATA_AT + 96, LOGICAL_SECTOR_SIZE) ∈ i.pieces := by simp [pieces]
  have sig : inner.readExactAt 1048576 8 = .ok METADATA := readExactAt_piece hc hl hsig
  have count : leU16 inner 1048586 = .ok 3 :=
    readField_le hc hl (by decide) (by simp [pieces, METADATA_AT]) (by decide)
  have file : inner.readExactAt 1048608 16 = .ok FILE_PARAMETERS := readExactAt_piece hc hl hfile
  have fileAt : leU32 inner 1048624 = .ok 65536 :=
    readField_le hc hl (by decide) (by simp [pieces, METADATA_AT]) (by decide)
  have disk : inner.readExactAt 1048640 16 = .ok VIRTUAL_DISK_SIZE := readExactAt_piece hc hl hdisk
  have diskAt : leU32 inner 1048656 = .ok 65544 :=
    readField_le hc hl (by decide) (by simp [pieces, METADATA_AT]) (by decide)
  have sector : inner.readExactAt 1048672 16 = .ok LOGICAL_SECTOR_SIZE := readExactAt_piece hc hl hsector
  have sectorAt : leU32 inner 1048688 = .ok 65552 :=
    readField_le hc hl (by decide) (by simp [pieces, METADATA_AT]) (by decide)
  have blockSize : leU32 inner 1114112 = .ok (.ofNat i.disk.unit) :=
    readField_le hc hl (by decide) (by simp [pieces, METADATA_AT]) hunit
  have flags : leU32 inner 1114116 = .ok 0 :=
    readField_zeros hc hl (by decide) misses_flags hend
  have virtualSize : leU64 inner 1114120 = .ok (.ofNat i.disk.flat.length) :=
    readField_le hc hl (by decide) (by simp [pieces, METADATA_AT]) hf.flat_lt
  have sectorSize : leU32 inner 1114128 = .ok (.ofNat i.sectorSize) :=
    readField_le hc hl (by decide) (by simp [pieces, METADATA_AT]) hf.sectorSize_lt
  have first : metadataEntry inner METADATA_AT ⟨none, none, none, false⟩ 0 =
      .ok ⟨some (.ofNat i.disk.unit), none, none, false⟩ := by
    simp (disch := decide) only [metadataEntry, U64.add_eq, U64.mul_eq, Exec.ok_bind, METADATA_AT, Nat.reduceAdd,
      Nat.reduceMul, file, fileAt, UInt32.reduceToNat, if_true, blockSize, flags]
    rfl
  have second : metadataEntry inner METADATA_AT ⟨some (.ofNat i.disk.unit), none, none, false⟩ 1 =
      .ok ⟨some (.ofNat i.disk.unit), some (.ofNat i.disk.flat.length), none, false⟩ := by
    simp (disch := decide) only [metadataEntry, U64.add_eq, U64.mul_eq, Exec.ok_bind, METADATA_AT, Nat.reduceAdd,
      Nat.reduceMul, disk, diskAt, UInt32.reduceToNat, if_true, virtualSize,
      if_neg (show VIRTUAL_DISK_SIZE ≠ FILE_PARAMETERS by decide)]
    rfl
  have third : metadataEntry inner METADATA_AT
      ⟨some (.ofNat i.disk.unit), some (.ofNat i.disk.flat.length), none, false⟩ 2 =
      .ok ⟨some (.ofNat i.disk.unit), some (.ofNat i.disk.flat.length), some (.ofNat i.sectorSize), false⟩ := by
    simp (disch := decide) only [metadataEntry, U64.add_eq, U64.mul_eq, Exec.ok_bind, METADATA_AT, Nat.reduceAdd,
      Nat.reduceMul, sector, sectorAt, UInt32.reduceToNat, if_true, sectorSize,
      if_neg (show LOGICAL_SECTOR_SIZE ≠ FILE_PARAMETERS by decide),
      if_neg (show LOGICAL_SECTOR_SIZE ≠ VIRTUAL_DISK_SIZE by decide)]
    rfl
  have fold : (List.range (3 : UInt16).toNat).foldlM (metadataEntry inner METADATA_AT) ⟨none, none, none, false⟩ =
      .ok ⟨some (.ofNat i.disk.unit), some (.ofNat i.disk.flat.length), some (.ofNat i.sectorSize), false⟩ := by
    rw [show List.range (3 : UInt16).toNat = [0, 1, 2] from rfl, List.foldlM_cons, first, Exec.ok_bind,
      List.foldlM_cons, second, Exec.ok_bind, List.foldlM_cons, third, Exec.ok_bind, List.foldlM_nil]
    rfl
  rw [METADATA_AT] at fold ⊢
  simp (disch := decide) only [Metadata.read, U64.add_eq, Exec.ok_bind, Nat.reduceAdd, sig, count]
  rw [Exec.errIf_neg (by decide), Exec.ok_bind, Exec.errIf_neg (by decide), Exec.ok_bind, fold]
  rfl

theorem open_write (hc : inner.Conforming i.write) (hf : i.Fits) : ∃ s, VhdxSource.open inner = .ok s ∧
    s.inner = inner ∧ s.blockSize = i.disk.unit ∧ s.chunkRatio = i.chunkRatio ∧ s.batOffset.toNat = BAT_AT ∧
    s.virtualSize.toNat = i.disk.flat.length := by
  have hl := i.laid
  have hmem := i.unit_mem
  have hfile : (0, FILE_ID) ∈ i.pieces := by simp [pieces]
  have file : inner.readExactAt 0 8 = .ok FILE_ID := readExactAt_piece hc hl hfile
  have hunit : (UInt32.ofNat i.disk.unit).toNat = i.disk.unit :=
    UInt32.toNat_ofNat_of_lt' (show i.disk.unit < 2 ^ 32 by omega)
  have hsector : (UInt32.ofNat i.sectorSize).toNat = i.sectorSize := UInt32.toNat_ofNat_of_lt' hf.sectorSize_lt
  have hne : UInt32.ofNat i.sectorSize ≠ 0 := by
    intro he
    have := i.sectorSize_pos
    rw [he, UInt32.toNat_zero] at hsector
    omega
  have hlt := hf.sectorSize_lt
  have hmul : (U64.mul 8388608 (UInt32.ofNat i.sectorSize).toNat : Exec SourceError ℕ) =
      .ok (8388608 * i.sectorSize) := by
    rw [hsector, U64.mul_eq (by omega)]
  have hdiv : (U64.div (8388608 * i.sectorSize) (UInt32.ofNat i.disk.unit).toNat : Exec SourceError ℕ) =
      .ok (8388608 * i.sectorSize / i.disk.unit) := by
    rw [hunit, U64.div_eq (by omega)]
  have hinfo : Metadata.read inner (UInt64.ofNat METADATA_AT).toNat inner.identity.path =
      .ok ⟨.ofNat i.disk.unit, .ofNat i.disk.flat.length, .ofNat i.sectorSize, false⟩ := metadata_write hc hf _
  have hflat : (UInt64.ofNat i.disk.flat.length).toNat = i.disk.flat.length :=
    UInt64.toNat_ofNat_of_lt' hf.flat_lt
  simp only [VhdxSource.open, file, Exec.ok_bind, regionTable_write hc, hinfo]
  rw [Exec.errIf_neg (by decide), Exec.errIf_neg (by decide)]
  simp only [Exec.ok_bind, dif_pos (And.intro (hunit.symm ▸ hmem) hne), hmul, hdiv]
  exact ⟨_, rfl, rfl, hunit, rfl, rfl, hflat⟩

end

theorem chunkRatio_pos (i : VhdxImage) : 0 < i.chunkRatio :=
  Nat.lt_of_lt_of_le Nat.zero_lt_one (Nat.le_max_right ..)

theorem dvd_dataAt (i : VhdxImage) : 2 ^ 20 ∣ i.dataAt :=
  Nat.dvd_add (by decide) (Nat.dvd_mul_right ..)

-- What the reader makes of an entry that holds a place and the state of a block that is there.
theorem place_of_present {addr : ℕ} (hd : 2 ^ 20 ∣ addr) (hlt : addr + 6 < 2 ^ 64) :
    UInt64.ofNat (addr + 6) &&& 7 = PAYLOAD_BLOCK_FULLY_PRESENT ∧
      (UInt64.ofNat (addr + 6) &&& OFFSET_MASK).toNat = addr := by
  have hstate : (7 : UInt64).toNat = (2 ^ 3 - 1) <<< 0 := by decide
  have hmask : OFFSET_MASK.toNat = (2 ^ 44 - 1) <<< 20 := by decide
  refine ⟨UInt64.toNat_inj.mp ?_, ?_⟩
  · rw [UInt64.toNat_and, UInt64.toNat_ofNat_of_lt' hlt, hstate, and_mask, PAYLOAD_BLOCK_FULLY_PRESENT]
    rw [show UInt64.toNat 6 = 6 from rfl]
    omega
  · rw [UInt64.toNat_and, UInt64.toNat_ofNat_of_lt' hlt, hmask, and_mask]
    omega

theorem place_lt (hf : i.Fits) {block : ℕ} (h : block < i.disk.count) (hk : i.disk.keep block = true) :
    i.dataAt + i.disk.unit * i.disk.rank block + 6 < 2 ^ 64 := by
  have hr := Nat.mul_le_mul_left i.disk.unit (Sparse.rank_lt h hk)
  have hs := hf.size_lt
  have hu := i.unit_mem
  rw [size, i.disk.length_stored] at hs
  rw [Nat.mul_succ] at hr
  omega

theorem batEntry_block {block : ℕ} (h : block < i.disk.count) :
    i.batEntry (block + block / i.chunkRatio) = i.payloadEntry block := by
  have hm := Nat.mod_lt block i.chunkRatio_pos
  have hlt : block % i.chunkRatio < i.chunkRatio + 1 := Nat.lt_succ_of_lt hm
  have hindex : block + block / i.chunkRatio = (i.chunkRatio + 1) * (block / i.chunkRatio) + block % i.chunkRatio := by
    rw [← batIndex_eq, Nat.mul_comm]
  have hslot : (block + block / i.chunkRatio) % (i.chunkRatio + 1) = block % i.chunkRatio := by
    rw [hindex, Nat.mul_add_mod, Nat.mod_eq_of_lt hlt]
  have hrun : (block + block / i.chunkRatio) / (i.chunkRatio + 1) = block / i.chunkRatio := by
    rw [hindex, Nat.mul_add_div (Nat.succ_pos _), Nat.div_eq_of_lt hlt, Nat.add_zero]
  simp only [batEntry, hslot, hrun, Nat.div_add_mod', if_pos (And.intro hm h)]

theorem bat_lookup (hf : i.Fits) {block : ℕ} (h : block < i.disk.count) :
    leU64? i.write (BAT_AT + 8 * (block + block / i.chunkRatio)) = some (.ofNat (i.payloadEntry block)) := by
  have hp : (BAT_AT, i.bat) ∈ i.pieces := by simp [pieces]
  have hle : block / i.chunkRatio ≤ i.disk.count / i.chunkRatio := Nat.div_le_div_right (Nat.le_of_lt h)
  rw [← batEntry_block h]
  refine field_table_le i.laid hp (Nat.add_lt_add_of_lt_of_le h hle) ?_
  rw [batEntry_block h, payloadEntry]
  split
  case isTrue hk => exact place_lt hf h hk
  case isFalse   => decide

theorem located_write {s : VhdxSource} (hf : i.Fits) (hr : s.chunkRatio = i.chunkRatio)
    (ho : s.batOffset.toNat = BAT_AT) {block : ℕ} (h : block < i.disk.count) : s.located i.write block =
      some (if i.disk.keep block then some (i.dataAt + i.disk.unit * i.disk.rank block) else none) := by
  simp only [located, hr, ho, Nat.mul_comm _ 8, bat_lookup hf h, Option.bind_eq_bind, Option.bind_some]
  cases hk : i.disk.keep block with
  | false =>
    have hentry : i.payloadEntry block = PAYLOAD_BLOCK_ZERO := if_neg (by simp [hk])
    rw [hentry, if_pos (by decide)]
    rfl
  | true =>
    have hd : 2 ^ 20 ∣ i.disk.unit * i.disk.rank block := Dvd.dvd.mul_right i.unit_dvd _
    obtain ⟨hstate, hplace⟩ := place_of_present (Nat.dvd_add i.dvd_dataAt hd) (place_lt hf h hk)
    have hentry : i.payloadEntry block = i.dataAt + i.disk.unit * i.disk.rank block + 6 := if_pos hk
    rw [hentry, hstate, hplace, if_neg (not_not.mpr rfl), if_pos rfl]

section

variable [OverflowChecks] {inner : Source}

-- The reader opens every disk that has been written, over any source of it, and its tables map the disk.
theorem opens (hc : inner.Conforming i.write) (hf : i.Fits) : ∃ s, VhdxSource.open inner = .ok s ∧
    s.inner = inner ∧ (Disk.vhdx s).flat i.write = some i.disk.flat := by
  obtain ⟨s, ho, hi, hs, hr, hb, hv⟩ := open_write hc hf
  refine ⟨s, ho, hi, Disk.flat_eq_some_iff.mpr {
    length_eq := hv.symm
    walk_eq   := by
      intro x hx
      rw [Disk.walk, VhdxSource.walk_eq_walkUnit, hs]
      refine walkUnit_stored (fun block hlt => located_write hf hr hb hlt) ?_ (hv ▸ hx)
      exact subslice_container i.laid (by simp [pieces])
  }⟩

theorem vhdx_reads_back (hc : inner.Conforming i.write) (hf : i.Fits) : ∃ s, VhdxSource.open inner = .ok s ∧
    (Disk.vhdx s).toSource.Conforming i.disk.flat := by
  obtain ⟨s, ho, hi, hflat⟩ := opens hc hf
  have hc' : s.inner.Conforming i.write := hi.symm ▸ hc
  exact ⟨s, ho, Disk.conforming hc' hflat⟩

end

section

attribute [local instance] OverflowChecks.on

-- One block, which is not full.
def short : VhdxImage where
  sectorSize := 512
  disk       := .ofFlat [7] (Nat.two_pow_pos 20)
  sectorSize_pos := Nat.succ_pos _
  unit_mem       := by decide
  unit_dvd       := Nat.dvd_refl _

theorem vhdx_reads_back_short : ∃ s, VhdxSource.open (rawSource short.write) = .ok s ∧
    (Disk.vhdx s).toSource.Conforming [7] := by
  have hs : short.size = 0x400000 := by
    rw [size, short.disk.length_stored]
    decide +kernel
  have hl : short.write.length < 2 ^ 64 := by rw [write, length_container short.laid, hs]; decide
  exact vhdx_reads_back (i := short) (rawSource_conforming hl) {
    size_lt       := by rw [hs]; decide
    flat_lt       := by decide
    sectorSize_lt := by decide
  }

end

end VhdxImage
end Latent
