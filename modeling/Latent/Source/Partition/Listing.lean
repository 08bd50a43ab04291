import Latent.Search.Links
import Latent.Source.Partition.Basic

open Rust

namespace Latent.Partition

-- What an entry says of its partition, wherever it is listed.
structure Volume where
  kind   : List Char
  start  : ℕ
  length : ℕ
  name   : Option (List Char)
  deriving DecidableEq, Repr

def Volume.toPartition (index : ℕ) (v : Volume) : Partition where
  index  := index
  kind   := v.kind
  start  := v.start
  length := v.length
  name   := v.name

def number (volumes : List Volume) : List Partition :=
  volumes.mapIdx Volume.toPartition

@[simp] theorem length_number (volumes : List Volume) : (number volumes).length = volumes.length := by
  simp [number]

theorem number_concat (volumes : List Volume) (v : Volume) :
    number (volumes ++ [v]) = number volumes ++ [v.toPartition volumes.length] := by
  simp [number]

theorem number_eq_nil_iff {volumes : List Volume} : number volumes = [] ↔ volumes = [] := by
  simp [number]

-- The header sector of a GUID partition table, and its header with the checksum blanked out.
def gptHeader (content : Bytes) : Bytes :=
  subslice content SECTOR SECTOR

def checkedGptHeader (content : Bytes) : Bytes :=
  let h := subslice (gptHeader content) 0 (Bytes.leAt (gptHeader content) 12 4)
  h.take 16 ++ Bytes.zeros 4 ++ h.drop 20

def gptOffset (content : Bytes) : ℕ :=
  Bytes.leAt (gptHeader content) 72 8 * SECTOR

def gptCount (content : Bytes) : ℕ :=
  Bytes.leAt (gptHeader content) 80 4

def gptEntrySize (content : Bytes) : ℕ :=
  Bytes.leAt (gptHeader content) 84 4

def gptArray (content : Bytes) : Bytes :=
  subslice content (gptOffset content) (gptCount content * gptEntrySize content)

@[mk_iff]
structure GptUsable (content : Bytes) : Prop where
  sector      : SECTOR + SECTOR ≤ content.length
  signature   : subslice (gptHeader content) 0 8 = GPT_SIGNATURE
  headerSize  : 92 ≤ Bytes.leAt (gptHeader content) 12 4 ∧ Bytes.leAt (gptHeader content) 12 4 ≤ SECTOR
  headerCrc   : Crc32.hash (checkedGptHeader content) = Bytes.leAt (gptHeader content) 16 4
  entries     : (128 ≤ gptEntrySize content ∧ gptEntrySize content ≤ 4096) ∧
    gptCount content ≠ 0 ∧ gptCount content ≤ 4096
  arrayOffset : gptOffset content < 2 ^ 64
  array       : gptOffset content + gptCount content * gptEntrySize content ≤ content.length
  arrayCrc    : Crc32.hash (gptArray content) = Bytes.leAt (gptHeader content) 88 4

instance (content : Bytes) : Decidable (GptUsable content) :=
  decidable_of_iff _ (gptUsable_iff content).symm

-- The volume of a GPT entry that is used and whose byte range can be expressed.
def gptVolume (entry : Bytes) : Option Volume :=
  let first := Bytes.leAt entry 32 8
  let last := Bytes.leAt entry 40 8
  if (subslice entry 0 16).all (· = 0) then
    none
  else if first ≤ last ∧ first * SECTOR < 2 ^ 64 ∧ (last - first + 1) * SECTOR < 2 ^ 64 then
    some {
      kind   := guidString (subslice entry 0 16)
      start  := first * SECTOR
      length := (last - first + 1) * SECTOR
      name   := decodeName (subslice entry 56 72)
    }
  else
    none

def gptVolumes (content : Bytes) : List Volume :=
  (chunksExact (gptEntrySize content) (gptArray content)).filterMap gptVolume

-- The entry in the given slot of the table in the given sector, counted from 0.
def entryAt (content : Bytes) (sector slot : ℕ) : Bytes :=
  subslice content (sector * SECTOR + (446 + 16 * slot)) 16

def entryKind (entry : Bytes) : UInt8 :=
  entry.getD 4 0

def entryStart (entry : Bytes) : ℕ :=
  Bytes.leAt entry 8 4

def entryCount (entry : Bytes) : ℕ :=
  Bytes.leAt entry 12 4

def IsPrimary (entry : Bytes) : Prop :=
  entryKind entry ≠ 0x00 ∧ entryKind entry ≠ 0xEE ∧ ¬isExtended (entryKind entry) ∧ entryCount entry ≠ 0

def IsLogical (entry : Bytes) : Prop :=
  entryKind entry ≠ 0 ∧ entryCount entry ≠ 0

instance (entry : Bytes) : Decidable (IsPrimary entry) :=
  inferInstanceAs (Decidable (_ ∧ _))

instance (entry : Bytes) : Decidable (IsLogical entry) :=
  inferInstanceAs (Decidable (_ ∧ _))

-- The start of an entry counts from the sector that holds it, which is sector 0 for the primary ones.
def mbrVolume (content : Bytes) (p : ℕ × ℕ) : Volume :=
  let entry := entryAt content p.1 p.2
  { kind   := kindText (entryKind entry)
    start  := (p.1 + entryStart entry) * SECTOR
    length := entryCount entry * SECTOR
    name   := none }

def Signed (content : Bytes) (sector : ℕ) : Prop :=
  sector * SECTOR + SECTOR ≤ content.length ∧
    content[sector * SECTOR + 510]? = some 0x55 ∧ content[sector * SECTOR + 511]? = some 0xAA

instance (content : Bytes) (sector : ℕ) : Decidable (Signed content sector) :=
  inferInstanceAs (Decidable (_ ∧ _))

def primaryEntries (content : Bytes) : List (ℕ × ℕ) :=
  ((List.range 4).filter fun slot => IsPrimary (entryAt content 0 slot)).map fun slot => (0, slot)

def logicalEntries (content : Bytes) (sectors : List ℕ) : List (ℕ × ℕ) :=
  (sectors.filter fun e => IsLogical (entryAt content e 0)).map fun e => (e, 0)

def extendedBases (content : Bytes) : List ℕ :=
  ((List.range 4).filter fun slot => isExtended (entryKind (entryAt content 0 slot))).map
    fun slot => entryStart (entryAt content 0 slot)

-- Where the link of the extended boot record in a sector leads. A zero link ends the chain, and so
-- does a link to the sector itself or to one that is no boot record.
def linkOf (content : Bytes) (e : ℕ) : ℕ :=
  entryStart (entryAt content e 1)

def follow (content : Bytes) (base e : ℕ) : Option ℕ :=
  if linkOf content e = 0 ∨ base + linkOf content e = e ∨ ¬Signed content (base + linkOf content e) then
    none
  else
    some (base + linkOf content e)

def ebrFrom (content : Bytes) (base fuel e : ℕ) : List ℕ :=
  if Signed content e then Links.walk (follow content base) fuel e else []

-- The extended boot records in the order in which they are processed.
def ebrSectors (content : Bytes) : List ℕ :=
  match (extendedBases content).getLast? with
  | some base => ebrFrom content base 1024 base
  | none      => []

def mbrEntries (content : Bytes) : List (ℕ × ℕ) :=
  primaryEntries content ++ logicalEntries content (ebrSectors content)

-- The table that a disk has: a usable GUID partition table goes before the master boot record.
def table (content : Bytes) : PartitionTable :=
  if GptUsable content then
    { scheme := .gpt, partitions := number (gptVolumes content) }
  else if Signed content 0 ∧ mbrEntries content ≠ [] then
    { scheme := .mbr, partitions := number ((mbrEntries content).map (mbrVolume content)) }
  else
    { scheme := .none, partitions := [] }

end Latent.Partition
