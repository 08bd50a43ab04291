import Latent.Bytes.Crc32
import Latent.Carve.Extractor
import Latent.Rust.Int
import Latent.Rust.Refine
import Mathlib.Tactic.MkIffOfInductiveProp

open Rust

namespace Latent.Evtx

def CHUNK_MAGIC : Bytes :=
  [0x45, 0x6c, 0x66, 0x43, 0x68, 0x6e, 0x6b, 0x00]

def FILE_MAGIC : Bytes :=
  [0x45, 0x6c, 0x66, 0x46, 0x69, 0x6c, 0x65, 0x00]

def RECORD_MAGIC : Bytes :=
  [0x2a, 0x2a, 0x00, 0x00]

def CHUNK_SIZE : ℕ :=
  64 * 1024

def CHUNK_HEADER_SIZE : ℕ :=
  512

def FILE_HEADER_SIZE : ℕ :=
  128

def RECORD_HEADER_SIZE : ℕ :=
  24

def FILETIME_1990 : UInt64 :=
  122756256000000000

def FILETIME_2100 : UInt64 :=
  157469184000000000

-- The position is a constant or less than 2³², so its sum with the width is exact.
def readU32 (data : Bytes) (pos : ℕ) : Option ℕ :=
  (getRange data pos 4).map Bytes.fromLE

def readU64 (data : Bytes) (pos : ℕ) : Option ℕ :=
  (getRange data pos 8).map Bytes.fromLE

structure Config where
  minFiletime   : UInt64
  maxFiletime   : UInt64
  maxRecordSize : UInt32
  deriving DecidableEq, Repr

def Config.default : Config where
  minFiletime   := FILETIME_1990
  maxFiletime   := FILETIME_2100
  maxRecordSize := CHUNK_SIZE.toUInt32

structure FileHeaderMeta where
  firstChunk   : ℕ
  lastChunk    : ℕ
  nextRecordId : ℕ
  chunkCount   : ℕ
  flags        : ℕ
  deriving DecidableEq, Repr

def validateChunk (data : Bytes) : Exec Rejection ℕ := do
  Exec.errIf (data.length < CHUNK_HEADER_SIZE) <| .truncated CHUNK_HEADER_SIZE data.length
  Exec.errIf ((← slice data 0 8) ≠ CHUNK_MAGIC) .notThisFormat
  let freeSpace ← Exec.unwrap (readU32 data 48)
  Exec.errIf (¬(CHUNK_HEADER_SIZE ≤ freeSpace ∧ freeSpace ≤ CHUNK_SIZE)) <|
    .lengthOutOfBounds "free_space_offset" freeSpace CHUNK_SIZE
  let wantHeader ← Exec.unwrap (readU32 data 124)
  let hasher := Crc32.update Crc32.init (← slice data 0 120)
  let hasher := Crc32.update hasher (← slice data 128 CHUNK_HEADER_SIZE)
  Exec.errIf (Crc32.finalize hasher ≠ wantHeader) <| .failedValidation "chunk header CRC mismatch"
  Exec.errIf (data.length < freeSpace) <| .truncated freeSpace data.length
  let wantRecords ← Exec.unwrap (readU32 data 52)
  Exec.errIf (Crc32.hash (← slice data CHUNK_HEADER_SIZE freeSpace) ≠ wantRecords) <|
    .failedValidation "event records checksum mismatch"
  let firstNum ← Exec.unwrap (readU64 data 8)
  let lastNum ← Exec.unwrap (readU64 data 16)
  let firstId ← Exec.unwrap (readU64 data 24)
  let lastId ← Exec.unwrap (readU64 data 32)
  Exec.errIf (lastNum < firstNum ∨ lastId < firstId) <|
    .failedValidation "first/last record identifier incoherent"
  .ok (min CHUNK_SIZE data.length)

structure RecordFrame where
  size     : ℕ
  recordId : ℕ
  deriving DecidableEq, Repr

section

variable [OverflowChecks]

-- The identifier of the record at the head of `next`, if there is a well-formed one.
def neighbourId (next : Bytes) : Exec Rejection (Option ℕ) := do
  let minSize := RECORD_HEADER_SIZE + 4
  if next.length < minSize then
    .ok none
  else if (← slice next 0 4) ≠ RECORD_MAGIC then
    .ok none
  else
    let nextSize ← Exec.unwrap (readU32 next 4)
    if nextSize < minSize ∨ nextSize % 8 ≠ 0 ∨ next.length < nextSize then
      .ok none
    else if (← Exec.unwrap (readU32 next (← U64.sub nextSize 4))) ≠ nextSize then
      .ok none
    else
      let nextId ← Exec.unwrap (readU64 next 8)
      .ok (some nextId)

def validateRecord (data : Bytes) (config : Config) : Exec Rejection RecordFrame := do
  let minSize := RECORD_HEADER_SIZE + 4
  Exec.errIf (data.length < minSize) <| .truncated minSize data.length
  Exec.errIf ((← slice data 0 4) ≠ RECORD_MAGIC) .notThisFormat
  let size ← Exec.unwrap (readU32 data 4)
  Exec.errIf (size < minSize ∨ config.maxRecordSize.toNat < size) <|
    .lengthOutOfBounds "record size" size config.maxRecordSize.toNat
  Exec.errIf (size % 8 ≠ 0) <| .failedValidation "record size is not 8-byte aligned"
  Exec.errIf (data.length < size) <| .truncated size data.length
  let tail ← Exec.unwrap (readU32 data (← U64.sub size 4))
  Exec.errIf (tail ≠ size) <| .failedValidation "record head/tail size mismatch"
  let recordId ← Exec.unwrap (readU64 data 8)
  let filetime ← Exec.unwrap (readU64 data 16)
  Exec.errIf (filetime < config.minFiletime.toNat ∨ config.maxFiletime.toNat < filetime) <|
    .failedValidation "record FILETIME outside the plausibility window"
  let nextId ← neighbourId (data.drop size)
  Exec.errIf (∃ id ∈ nextId, id ≤ recordId) <|
    .failedValidation "record identifiers not monotonically increasing"
  .ok { size, recordId }

end

def validateFileHeader (data : Bytes) : Exec Rejection FileHeaderMeta := do
  Exec.errIf (data.length < FILE_HEADER_SIZE) <| .truncated FILE_HEADER_SIZE data.length
  Exec.errIf ((← slice data 0 8) ≠ FILE_MAGIC) .notThisFormat
  let want ← Exec.unwrap (readU32 data 124)
  Exec.errIf (Crc32.hash (← slice data 0 120) ≠ want) <| .failedValidation "file header CRC mismatch"
  let firstChunk ← Exec.unwrap (readU64 data 8)
  let lastChunk ← Exec.unwrap (readU64 data 16)
  Exec.errIf (lastChunk < firstChunk) <| .failedValidation "first/last chunk number incoherent"
  let nextRecordId ← Exec.unwrap (readU64 data 24)
  let chunkCount := Bytes.fromLE (← slice data 42 44)
  let flags ← Exec.unwrap (readU32 data 120)
  .ok { firstChunk, lastChunk, nextRecordId, chunkCount, flags }

variable {data next : Bytes} {config : Config} {pos : ℕ}

theorem readU32_eq (h : pos + 4 ≤ data.length) : readU32 data pos = some (Bytes.leAt data pos 4) := by
  rw [readU32, getRange_eq h]
  rfl

theorem readU64_eq (h : pos + 8 ≤ data.length) : readU64 data pos = some (Bytes.leAt data pos 8) := by
  rw [readU64, getRange_eq h]
  rfl

-- What the two checksums of a chunk cover.
def freeSpace (data : Bytes) : ℕ :=
  Bytes.leAt data 48 4

def checkedHeader (data : Bytes) : Bytes :=
  subslice data 0 120 ++ subslice data 128 384

def checkedRecords (data : Bytes) : Bytes :=
  subslice data 512 (freeSpace data - 512)

@[mk_iff]
structure ChunkValid (data : Bytes) : Prop where
  length     : 512 ≤ data.length
  magic      : subslice data 0 8 = CHUNK_MAGIC
  bounds     : 512 ≤ freeSpace data ∧ freeSpace data ≤ CHUNK_SIZE
  headerCrc  : Crc32.hash (checkedHeader data) = Bytes.leAt data 124 4
  records    : freeSpace data ≤ data.length
  recordsCrc : Crc32.hash (checkedRecords data) = Bytes.leAt data 52 4
  coherent   : Bytes.leAt data 8 8 ≤ Bytes.leAt data 16 8 ∧ Bytes.leAt data 24 8 ≤ Bytes.leAt data 32 8

theorem validateChunk_decides :
    (validateChunk data).Decides (ChunkValid data) (min CHUNK_SIZE data.length) := by
  rw [chunkValid_iff]
  refine .check Nat.not_lt fun hl => ?_
  simp (disch := omega) only [CHUNK_HEADER_SIZE, slice_eq, readU32_eq, readU64_eq, Exec.unwrap_some,
    Exec.ok_bind, ← Crc32.update_append]
  refine .check not_not fun _ => .check not_not fun hf => .check not_not fun _ => .check Nat.not_lt fun hr => ?_
  have hs : slice data 512 (Bytes.leAt data 48 4) = (.ok (checkedRecords data) : Exec Rejection Bytes) :=
    slice_eq hf.1 hr
  rw [hs, Exec.ok_bind]
  refine .check not_not fun _ => .last ?_
  rw [not_or, Nat.not_lt, Nat.not_lt]

@[mk_iff]
structure FileHeaderValid (data : Bytes) : Prop where
  length    : 128 ≤ data.length
  magic     : subslice data 0 8 = FILE_MAGIC
  headerCrc : Crc32.hash (subslice data 0 120) = Bytes.leAt data 124 4
  coherent  : Bytes.leAt data 8 8 ≤ Bytes.leAt data 16 8

def fileHeaderMeta (data : Bytes) : FileHeaderMeta where
  firstChunk   := Bytes.leAt data 8 8
  lastChunk    := Bytes.leAt data 16 8
  nextRecordId := Bytes.leAt data 24 8
  chunkCount   := Bytes.leAt data 42 2
  flags        := Bytes.leAt data 120 4

theorem validateFileHeader_decides :
    (validateFileHeader data).Decides (FileHeaderValid data) (fileHeaderMeta data) := by
  rw [fileHeaderValid_iff]
  refine .check Nat.not_lt fun hl => ?_
  simp (disch := omega) only [slice_eq, readU32_eq, readU64_eq, Exec.unwrap_some, Exec.ok_bind]
  exact .check not_not fun _ => .check not_not fun _ => .last Nat.not_lt

def recordSize (data : Bytes) : ℕ :=
  Bytes.leAt data 4 4

def recordId (data : Bytes) : ℕ :=
  Bytes.leAt data 8 8

-- The frame of a record: the same size at the head and at the tail, and enough bytes for it.
@[mk_iff]
structure Framed (data : Bytes) : Prop where
  length  : 28 ≤ data.length
  magic   : subslice data 0 4 = RECORD_MAGIC
  size    : 28 ≤ recordSize data
  aligned : recordSize data % 8 = 0
  fits    : recordSize data ≤ data.length
  tail    : Bytes.leAt data (recordSize data - 4) 4 = recordSize data

instance : Decidable (Framed data) :=
  decidable_of_iff _ (framed_iff data).symm

@[mk_iff]
structure RecordValid (config : Config) (data : Bytes) : Prop where
  length    : 28 ≤ data.length
  magic     : subslice data 0 4 = RECORD_MAGIC
  bounds    : 28 ≤ recordSize data ∧ recordSize data ≤ config.maxRecordSize.toNat
  aligned   : recordSize data % 8 = 0
  fits      : recordSize data ≤ data.length
  tail      : Bytes.leAt data (recordSize data - 4) 4 = recordSize data
  filetime  : config.minFiletime.toNat ≤ Bytes.leAt data 16 8 ∧ Bytes.leAt data 16 8 ≤ config.maxFiletime.toNat
  monotone  : Framed (data.drop (recordSize data)) → recordId data < recordId (data.drop (recordSize data))

-- What is demanded of a record whatever comes after it.
@[mk_iff]
structure RecordSound (config : Config) (data : Bytes) : Prop where
  length   : 28 ≤ data.length
  magic    : subslice data 0 4 = RECORD_MAGIC
  bounds   : 28 ≤ recordSize data ∧ recordSize data ≤ config.maxRecordSize.toNat
  aligned  : recordSize data % 8 = 0
  fits     : recordSize data ≤ data.length
  tail     : Bytes.leAt data (recordSize data - 4) 4 = recordSize data
  filetime : config.minFiletime.toNat ≤ Bytes.leAt data 16 8 ∧ Bytes.leAt data 16 8 ≤ config.maxFiletime.toNat

instance : Decidable (RecordSound config data) :=
  decidable_of_iff _ (recordSound_iff config data).symm

theorem recordValid_iff_sound : RecordValid config data ↔ RecordSound config data ∧
    (Framed (data.drop (recordSize data)) → recordId data < recordId (data.drop (recordSize data))) where
  mp h  := ⟨⟨h.length, h.magic, h.bounds, h.aligned, h.fits, h.tail, h.filetime⟩, h.monotone⟩
  mpr h := ⟨h.1.length, h.1.magic, h.1.bounds, h.1.aligned, h.1.fits, h.1.tail, h.1.filetime, h.2⟩

variable [OverflowChecks]

theorem neighbourId_eq (next : Bytes) :
    neighbourId next = .ok (if Framed next then some (recordId next) else none) := by
  unfold neighbourId
  dsimp only
  split
  case isTrue h => rw [if_neg fun hf => absurd hf.length (Nat.not_le.mpr h)]
  case isFalse h =>
    have h : 28 ≤ next.length := Nat.le_of_not_lt h
    simp (disch := omega) only [slice_eq, readU32_eq, readU64_eq, Exec.unwrap_some, Exec.ok_bind]
    split
    case isTrue hm => rw [if_neg fun hf => hm hf.magic]
    case isFalse hm =>
      split
      case isTrue hs =>
        rw [if_neg fun hf => ?_]
        have hsize := hf.size
        have haligned := hf.aligned
        have hfits := hf.fits
        simp only [recordSize] at hsize haligned hfits
        simp only [RECORD_HEADER_SIZE] at hs
        omega
      case isFalse hs =>
        rw [U64.sub_eq (by omega), Exec.ok_bind, readU32_eq (by omega), Exec.unwrap_some, Exec.ok_bind]
        split
        case isTrue ht => rw [if_neg fun hf => ht hf.tail]
        case isFalse ht =>
          simp only [not_or, not_not, Nat.not_lt] at h hm hs ht
          have hf : Framed next := ⟨h, hm, hs.1, hs.2.1, hs.2.2, ht⟩
          rw [if_pos hf]
          rfl

def notMonotone : Rejection :=
  .failedValidation "record identifiers not monotonically increasing"

-- `validate_record` up to the neighbour.
def validateAlone (data : Bytes) (config : Config) : Exec Rejection RecordFrame := do
  let minSize := RECORD_HEADER_SIZE + 4
  Exec.errIf (data.length < minSize) <| .truncated minSize data.length
  Exec.errIf ((← slice data 0 4) ≠ RECORD_MAGIC) .notThisFormat
  let size ← Exec.unwrap (readU32 data 4)
  Exec.errIf (size < minSize ∨ config.maxRecordSize.toNat < size) <|
    .lengthOutOfBounds "record size" size config.maxRecordSize.toNat
  Exec.errIf (size % 8 ≠ 0) <| .failedValidation "record size is not 8-byte aligned"
  Exec.errIf (data.length < size) <| .truncated size data.length
  let tail ← Exec.unwrap (readU32 data (← U64.sub size 4))
  Exec.errIf (tail ≠ size) <| .failedValidation "record head/tail size mismatch"
  let recordId ← Exec.unwrap (readU64 data 8)
  let filetime ← Exec.unwrap (readU64 data 16)
  Exec.errIf (filetime < config.minFiletime.toNat ∨ config.maxFiletime.toNat < filetime) <|
    .failedValidation "record FILETIME outside the plausibility window"
  .ok { size, recordId }

theorem validateAlone_decides :
    (validateAlone data config).Decides (RecordSound config data)
      { size := recordSize data, recordId := recordId data } := by
  rw [recordSound_iff]
  unfold validateAlone
  simp only [RECORD_HEADER_SIZE]
  refine .check Nat.not_lt fun hl => ?_
  simp (disch := omega) only [slice_eq, readU32_eq, readU64_eq, Exec.unwrap_some, Exec.ok_bind]
  refine .check not_not fun _ => .check (by rw [not_or, Nat.not_lt, Nat.not_lt]; rfl) fun hb => ?_
  refine .check not_not fun _ => .check Nat.not_lt fun hf => ?_
  have hs : U64.sub (Bytes.leAt data 4 4) 4 = (.ok (recordSize data - 4) : Exec Rejection ℕ) :=
    U64.sub_eq (Nat.le_trans (by omega) hb.1)
  have ht : readU32 data (recordSize data - 4) = some (Bytes.leAt data (recordSize data - 4) 4) :=
    readU32_eq (by omega)
  rw [hs, Exec.ok_bind, ht, Exec.unwrap_some, Exec.ok_bind]
  exact .check not_not fun _ => .last (by rw [not_or, Nat.not_lt, Nat.not_lt])

theorem validateRecord_eq_alone : validateRecord data config = (do
    let frame ← validateAlone data config
    let nextId ← neighbourId (data.drop frame.size)
    Exec.errIf (∃ id ∈ nextId, id ≤ frame.recordId) notMonotone
    .ok frame) := by
  simp only [validateRecord, validateAlone, bind_assoc, Exec.ok_bind, notMonotone]

theorem validateRecord_decides :
    (validateRecord data config).Decides (RecordValid config data)
      { size := recordSize data, recordId := recordId data } := by
  rw [recordValid_iff_sound, validateRecord_eq_alone]
  refine validateAlone_decides.bind fun _ => ?_
  rw [neighbourId_eq, Exec.ok_bind]
  refine .last ?_
  split <;> simp_all

end Latent.Evtx
