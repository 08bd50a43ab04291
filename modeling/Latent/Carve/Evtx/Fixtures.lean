import Latent.Carve.Evtx.Format

open Rust

namespace Latent.Evtx

-- A chunk whose event-records area holds `records`. Its header up to the flags is what the header
-- checksum starts with.
def chunkFront (records : Bytes) : Bytes :=
  CHUNK_MAGIC ++ (Bytes.toLE 8 1 ++ (Bytes.toLE 8 2 ++ (Bytes.toLE 8 1 ++ (Bytes.toLE 8 2 ++
    (Bytes.toLE 4 128 ++ (Bytes.toLE 4 (CHUNK_HEADER_SIZE + records.length) ++
      (Bytes.toLE 4 (CHUNK_HEADER_SIZE + records.length) ++ (Bytes.toLE 4 (Crc32.hash records) ++
        Bytes.zeros 64))))))))

def buildChunk (records : Bytes) : Bytes :=
  chunkFront records ++ (Bytes.zeros 4 ++
    (Bytes.toLE 4 (Crc32.hash (chunkFront records ++ Bytes.zeros 384)) ++ (Bytes.zeros 384 ++
      (records ++ Bytes.zeros (CHUNK_SIZE - (CHUNK_HEADER_SIZE + records.length))))))

def recordLength (body : Bytes) : ℕ :=
  (RECORD_HEADER_SIZE + body.length + 4 + 7) / 8 * 8

-- A record up to the size at its tail.
def recordFront (recordId filetime : UInt64) (body : Bytes) : Bytes :=
  RECORD_MAGIC ++ (Bytes.toLE 4 (recordLength body) ++ (Bytes.toLE 8 recordId.toNat ++
    (Bytes.toLE 8 filetime.toNat ++ (body ++
      Bytes.zeros (recordLength body - (RECORD_HEADER_SIZE + body.length + 4))))))

def buildRecord (recordId filetime : UInt64) (body : Bytes) : Bytes :=
  recordFront recordId filetime body ++ Bytes.toLE 4 (recordLength body)

def fileHeaderFront : Bytes :=
  FILE_MAGIC ++ (Bytes.toLE 8 1 ++ (Bytes.toLE 8 3 ++ (Bytes.toLE 8 42 ++ (Bytes.toLE 4 128 ++
    (Bytes.toLE 2 1 ++ (Bytes.toLE 2 3 ++ (Bytes.toLE 2 4096 ++ (Bytes.toLE 2 4 ++
      Bytes.zeros 76))))))))

def buildFileHeader : Bytes :=
  fileHeaderFront ++ (Bytes.toLE 4 1 ++ Bytes.toLE 4 (Crc32.hash fileHeaderFront))

variable {records body rest : Bytes} {id filetime : UInt64} {config : Config}

@[simp] theorem length_CHUNK_MAGIC : CHUNK_MAGIC.length = 8 :=
  by decide

@[simp] theorem length_FILE_MAGIC : FILE_MAGIC.length = 8 :=
  by decide

@[simp] theorem length_RECORD_MAGIC : RECORD_MAGIC.length = 4 :=
  by decide

@[simp] theorem length_chunkFront : (chunkFront records).length = 120 := by
  simp [chunkFront]

@[simp] theorem length_fileHeaderFront : fileHeaderFront.length = 120 := by
  simp [fileHeaderFront]

theorem crc_lt (l : Bytes) : Crc32.hash l < 256 ^ 4 :=
  Crc32.finalize_lt

attribute [local simp] subslice_append_skip subslice_append_take subslice_all Bytes.leAt

-- Every chunk that is built this way is valid, whatever its records are.
theorem buildChunk_valid (h : CHUNK_HEADER_SIZE + records.length ≤ CHUNK_SIZE) :
    ChunkValid (buildChunk records) := by
  have hlt : CHUNK_HEADER_SIZE + records.length < 256 ^ 4 := Nat.lt_of_le_of_lt h (by decide)
  have hl : (buildChunk records).length = CHUNK_SIZE := by
    simp [buildChunk, CHUNK_HEADER_SIZE, CHUNK_SIZE] at h ⊢
    omega
  have hf : freeSpace (buildChunk records) = CHUNK_HEADER_SIZE + records.length := by
    simp [freeSpace, buildChunk, chunkFront, Bytes.fromLE_toLE hlt]
  have hh : checkedHeader (buildChunk records) = chunkFront records ++ Bytes.zeros 384 := by
    simp [checkedHeader, buildChunk]
  have hr : checkedRecords (buildChunk records) = records := by
    rw [checkedRecords, hf]
    simp [CHUNK_HEADER_SIZE, buildChunk]
  refine ⟨?length, ?magic, ?bounds, ?headerCrc, ?records, ?recordsCrc, ?coherent⟩
  case length     => rw [hl]; decide
  case magic      => simp [buildChunk, chunkFront]
  case bounds     => rw [hf]; exact ⟨Nat.le_add_right .., h⟩
  case headerCrc  => rw [hh]; simp [buildChunk, Bytes.fromLE_toLE (crc_lt _)]
  case records    => rw [hf, hl]; exact h
  case recordsCrc => rw [hr]; simp [buildChunk, chunkFront, Bytes.fromLE_toLE (crc_lt _)]
  case coherent   => simp [buildChunk, chunkFront, Bytes.fromLE_toLE]

theorem buildFileHeader_valid : FileHeaderValid buildFileHeader where
  length    := by simp [buildFileHeader]
  magic     := by simp [buildFileHeader, fileHeaderFront]
  headerCrc := by simp [buildFileHeader, Bytes.fromLE_toLE (crc_lt _)]
  coherent  := by simp [buildFileHeader, fileHeaderFront, Bytes.fromLE_toLE]

theorem recordLength_eq (body : Bytes) : 28 + body.length ≤ recordLength body ∧ recordLength body % 8 = 0 := by
  simp only [recordLength, RECORD_HEADER_SIZE]
  omega

theorem length_buildRecord : (buildRecord id filetime body).length = recordLength body := by
  have := (recordLength_eq body).1
  simp [buildRecord, recordFront, RECORD_HEADER_SIZE]
  omega

theorem recordSize_buildRecord (h : recordLength body < 256 ^ 4) :
    recordSize (buildRecord id filetime body ++ rest) = recordLength body := by
  simp [recordSize, buildRecord, recordFront, Bytes.fromLE_toLE h]

theorem recordId_buildRecord : recordId (buildRecord id filetime body ++ rest) = id.toNat := by
  simp [recordId, buildRecord, recordFront]

theorem filetime_buildRecord : Bytes.leAt (buildRecord id filetime body ++ rest) 16 8 = filetime.toNat := by
  simp [buildRecord, recordFront]

theorem framed_buildRecord (h : recordLength body < 256 ^ 4) :
    Framed (buildRecord id filetime body ++ rest) := by
  have ⟨hle, hal⟩ := recordLength_eq body
  have hl : (buildRecord id filetime body).length = recordLength body := length_buildRecord
  refine ⟨?length, ?magic, ?size, ?aligned, ?fits, ?tail⟩
  case length  => simp [hl]; omega
  case magic   => simp [buildRecord, recordFront]
  case size    => rw [recordSize_buildRecord h]; omega
  case aligned => rw [recordSize_buildRecord h, hal]
  case fits    => simp [recordSize_buildRecord h, hl]
  case tail    =>
    rw [recordSize_buildRecord h]
    have hf : (recordFront id filetime body).length = recordLength body - 4 := by
      simp [buildRecord] at hl
      omega
    simp [buildRecord, hf, Bytes.fromLE_toLE h]

end Latent.Evtx
