import Latent.Bytes.Crc32
import Latent.Rust.Refine
import Latent.Source.Basic
import Latent.Text.Hex
import Latent.Text.Utf16

open Rust

namespace Latent

inductive Scheme
  | mbr
  | gpt
  | none
  deriving DecidableEq, Repr

structure Partition where
  index  : ℕ
  kind   : List Char
  start  : ℕ
  length : ℕ
  name   : Option (List Char)
  deriving DecidableEq, Repr

structure PartitionTable where
  scheme     : Scheme
  partitions : List Partition
  deriving DecidableEq, Repr

namespace Partition

def SECTOR : ℕ :=
  512

-- "EFI PART"
def GPT_SIGNATURE : Bytes :=
  [0x45, 0x46, 0x49, 0x20, 0x50, 0x41, 0x52, 0x54]

def kindText (kind : UInt8) : List Char :=
  '0' :: 'x' :: Text.hexPad 2 kind.toNat

-- The first three groups of a GUID are little-endian numbers, the other two are bytes in order.
def guidString (g : Bytes) : List Char :=
  Text.hexPad 8 (Bytes.leAt g 0 4) ++ '-' :: Text.hexPad 4 (Bytes.leAt g 4 2) ++
    '-' :: Text.hexPad 4 (Bytes.leAt g 6 2) ++ '-' :: Text.hex (subslice g 8 2) ++
    '-' :: Text.hex (subslice g 10 6)

def decodeName (bytes : Bytes) : Option (List Char) :=
  let units := ((chunksExact 2 bytes).map Bytes.fromLE).takeWhile (· ≠ 0)
  if units = [] then none else some (Text.fromUtf16Lossy units)

-- `l[a..b].fill(0)`
def fillZero {ε : Type} (l : Bytes) (a b : ℕ) : Exec ε Bytes :=
  if a ≤ b ∧ b ≤ l.length then .ok (l.take a ++ Bytes.zeros (b - a) ++ l.drop b) else .panic

def isExtended (kind : UInt8) : Bool :=
  kind = 0x05 || kind = 0x0F || kind = 0x85

section

variable {ε : Type}

-- The entries of the array, in order. An entry that is unused or out of range is left out.
def readEntries : List Bytes → List Partition → Exec ε (List Partition)
  | [], partitions              => .ok partitions
  | chunk :: chunks, partitions => do
    let typeGuid ← slice chunk 0 16
    if typeGuid.all (· = 0) then
      readEntries chunks partitions
    else
      let first := Bytes.fromLE (← slice chunk 32 40)
      let last := Bytes.fromLE (← slice chunk 40 48)
      let start? := U64.checkedMul first SECTOR
      let length? := ((U64.checkedSub last first).bind (U64.checkedAdd · 1)).bind (U64.checkedMul · SECTOR)
      match start?, length? with
      | some start, some length =>
        let index := partitions.length
        let kind := guidString typeGuid
        let name := decodeName (← slice chunk 56 128)
        readEntries chunks (partitions ++ [{ index, kind, start, length, name }])
      | _, _ => readEntries chunks partitions

variable [OverflowChecks]

def primary (index : ℕ) (kind : UInt8) (startLba count : ℕ) : Exec ε Partition := do
  let start ← U64.mul startLba SECTOR
  let length ← U64.mul count SECTOR
  .ok { index, kind := kindText kind, start, length, name := none }

def readGpt (src : Source) : Exec Unit (List Partition) := do
  let header ← (src.readExactAt SECTOR SECTOR).toOption
  Exec.errIf ((← slice header 0 8) ≠ GPT_SIGNATURE) ()
  let headerSize := Bytes.fromLE (← slice header 12 16)
  Exec.errIf (¬(92 ≤ headerSize ∧ headerSize ≤ SECTOR)) ()
  let wantHeaderCrc := Bytes.fromLE (← slice header 16 20)
  let h ← fillZero (← slice header 0 headerSize) 16 20
  Exec.errIf (Crc32.hash h ≠ wantHeaderCrc) ()
  let entryLba := Bytes.fromLE (← slice header 72 80)
  let count := Bytes.fromLE (← slice header 80 84)
  let entrySize := Bytes.fromLE (← slice header 84 88)
  let wantEntriesCrc := Bytes.fromLE (← slice header 88 92)
  Exec.errIf (¬(128 ≤ entrySize ∧ entrySize ≤ 4096) ∨ count = 0 ∨ 4096 < count) ()
  let entriesOffset ← Exec.okOr () (U64.checkedMul entryLba SECTOR)
  let len ← U64.mul count entrySize
  let entries ← (src.readExactAt entriesOffset len).toOption
  Exec.errIf (Crc32.hash entries ≠ wantEntriesCrc) ()
  readEntries (chunksExact entrySize entries) []

-- One slot of the MBR: what is listed so far and the base of the extended partition, if there is one.
def readSlot (listed : List Partition × Option ℕ) (entry : Bytes) : Exec ε (List Partition × Option ℕ) := do
  let kind ← Exec.unwrap entry[4]?
  let start := Bytes.fromLE (← slice entry 8 12)
  let count := Bytes.fromLE (← slice entry 12 16)
  if kind = 0x00 then
    .ok listed
  else if kind = 0xEE then
    .ok listed
  else if isExtended kind then
    .ok (listed.1, some start)
  else if count = 0 then
    .ok listed
  else
    let partition ← primary listed.1.length kind start count
    .ok (listed.1 ++ [partition], listed.2)

-- The chain of extended boot records. The fuel is the number of sectors still to be seen.
def readChain (src : Source) (extendedBase : ℕ) : (fuel ebr : ℕ) → List Partition → Exec ε (List Partition)
  | 0, _, partitions          => .ok partitions
  | fuel + 1, ebr, partitions => do
    match src.readExactAt (← U64.mul ebr SECTOR) SECTOR with
    | .panic     => .panic
    | .err _     => .ok partitions
    | .ok sector =>
      let signature₀ ← Exec.unwrap sector[510]?
      let signature₁ ← Exec.unwrap sector[511]?
      if signature₀ ≠ 0x55 ∨ signature₁ ≠ 0xAA then
        .ok partitions
      else
        let logical ← slice sector 446 462
        let kind ← Exec.unwrap logical[4]?
        let start := Bytes.fromLE (← slice logical 8 12)
        let count := Bytes.fromLE (← slice logical 12 16)
        let partitions ←
          if kind ≠ 0 ∧ count ≠ 0 then do
            let partition ← primary partitions.length kind (← U64.add ebr start) count
            .ok (partitions ++ [partition])
          else
            .ok partitions
        let next ← slice sector 462 478
        let nextRel := Bytes.fromLE (← slice next 8 12)
        if nextRel = 0 then
          .ok partitions
        else
          let nextEbr ← U64.add extendedBase nextRel
          if nextEbr = ebr then
            .ok partitions
          else
            readChain src extendedBase fuel nextEbr partitions

def readLogical (src : Source) (extendedBase : ℕ) (partitions : List Partition) : Exec ε (List Partition) :=
  readChain src extendedBase 1024 extendedBase partitions

-- The same loop with the sectors that it gets through in place of what it lists: each turn notes its
-- sector and leaves or goes on where `readChain` does.
def chainSectors (src : Source) (extendedBase : ℕ) : (fuel ebr : ℕ) → Exec ε (List ℕ)
  | 0, _          => .ok []
  | fuel + 1, ebr => do
    match src.readExactAt (← U64.mul ebr SECTOR) SECTOR with
    | .panic     => .panic
    | .err _     => .ok []
    | .ok sector =>
      let signature₀ ← Exec.unwrap sector[510]?
      let signature₁ ← Exec.unwrap sector[511]?
      if signature₀ ≠ 0x55 ∨ signature₁ ≠ 0xAA then
        .ok []
      else
        let next ← slice sector 462 478
        let nextRel := Bytes.fromLE (← slice next 8 12)
        if nextRel = 0 then
          .ok [ebr]
        else
          let nextEbr ← U64.add extendedBase nextRel
          if nextEbr = ebr then
            .ok [ebr]
          else
            let rest ← chainSectors src extendedBase fuel nextEbr
            .ok (ebr :: rest)

def logicalSectors (src : Source) (extendedBase : ℕ) : Exec ε (List ℕ) :=
  chainSectors src extendedBase 1024 extendedBase

def readMbr (src : Source) : Exec Unit (List Partition) := do
  let sector ← (src.readExactAt 0 SECTOR).toOption
  let signature₀ ← Exec.unwrap sector[510]?
  let signature₁ ← Exec.unwrap sector[511]?
  Exec.errIf (signature₀ ≠ 0x55 ∨ signature₁ ≠ 0xAA) ()
  let slots := (chunksExact 16 (← slice sector 446 510)).take 4
  let (partitions, extendedBase) ← slots.foldlM readSlot ([], none)
  let partitions ← match extendedBase with
    | some base => readLogical src base partitions
    | none      => .ok partitions
  Exec.errIf (partitions = []) ()
  .ok partitions

def read (src : Source) : Exec Empty PartitionTable :=
  match readGpt src with
  | .panic         => .panic
  | .ok partitions => .ok { scheme := .gpt, partitions }
  | .err _         => match readMbr src with
    | .panic         => .panic
    | .ok partitions => .ok { scheme := .mbr, partitions }
    | .err _         => .ok { scheme := .none, partitions := [] }

end

end Partition
end Latent
