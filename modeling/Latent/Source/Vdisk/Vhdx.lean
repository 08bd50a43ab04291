import Latent.Source.Vdisk.Basic

open Rust

namespace Latent

structure VhdxSource where
  inner       : Source
  identity    : Identity
  batOffset   : UInt64
  blockSize   : ℕ
  chunkRatio  : ℕ
  virtualSize : UInt64
  blockSize_mem  : 2 ^ 20 ≤ blockSize ∧ blockSize ≤ 2 ^ 28
  chunkRatio_pos : 0 < chunkRatio

namespace VhdxSource

open Vdisk

def REGION_TABLE : ℕ :=
  0x30000

def BAT_REGION : Bytes :=
  [0x66, 0x77, 0xc2, 0x2d, 0x23, 0xf6, 0x00, 0x42, 0x9d, 0x64, 0x11, 0x5e, 0x9b, 0xfd, 0x4a, 0x08]

def METADATA_REGION : Bytes :=
  [0x06, 0xa2, 0x7c, 0x8b, 0x90, 0x47, 0x9a, 0x4b, 0xb8, 0xfe, 0x57, 0x5f, 0x05, 0x0f, 0x88, 0x6e]

def FILE_PARAMETERS : Bytes :=
  [0x37, 0x67, 0xa1, 0xca, 0x36, 0xfa, 0x43, 0x4d, 0xb3, 0xb6, 0x33, 0xf0, 0xaa, 0x44, 0xe7, 0x6b]

def VIRTUAL_DISK_SIZE : Bytes :=
  [0x24, 0x42, 0xa5, 0x2f, 0x1b, 0xcd, 0x76, 0x48, 0xb2, 0x11, 0x5d, 0xbe, 0xd8, 0x3b, 0xf4, 0xb8]

def LOGICAL_SECTOR_SIZE : Bytes :=
  [0x1d, 0xbf, 0x41, 0x81, 0x6f, 0xa9, 0x09, 0x47, 0xba, 0x47, 0xf2, 0x33, 0xa8, 0xfa, 0xab, 0x5f]

def PAYLOAD_BLOCK_FULLY_PRESENT : UInt64 :=
  6

def OFFSET_MASK : UInt64 :=
  0xfffffffffff00000

-- What the scan of the region table has found so far.
structure Regions where
  bat      : Option UInt64
  metadata : Option UInt64

-- What the scan of the metadata table has found so far.
structure Items where
  blockSize   : Option UInt32
  virtualSize : Option UInt64
  sectorSize  : Option UInt32
  hasParent   : Bool

structure Metadata where
  blockSize         : UInt32
  virtualSize       : UInt64
  logicalSectorSize : UInt32
  hasParent         : Bool

section

variable [OverflowChecks]

def regionEntry (src : Source) (found : Regions) (i : ℕ) : Exec SourceError Regions := do
  let entry ← U64.add (← U64.add REGION_TABLE 16) (← U64.mul i 32)
  let guid ← src.readExactAt entry 16
  let fileOffset ← leU64 src (← U64.add entry 16)
  return if guid = BAT_REGION then { found with bat := some fileOffset }
    else if guid = METADATA_REGION then { found with metadata := some fileOffset }
    else found

def regionTable (src : Source) (path : String) : Exec SourceError (UInt64 × UInt64) := do
  let bad (detail : String) := SourceError.malformed path "vhdx" detail
  let sig ← src.readExactAt REGION_TABLE 4
  Exec.errIf (sig ≠ [0x72, 0x65, 0x67, 0x69]) <| bad "no region table"
  let count ← leU32 src (← U64.add REGION_TABLE 8)
  Exec.errIf (2047 < count) <| bad "absurd region entry count"
  let found ← (List.range count.toNat).foldlM (regionEntry src) { bat := none, metadata := none }
  match found.bat, found.metadata with
  | some b, some m => return (b, m)
  | _, _           => Exec.err <| bad "missing BAT or metadata region"

def metadataEntry (src : Source) (region : ℕ) (found : Items) (i : ℕ) : Exec SourceError Items := do
  let entry ← U64.add (← U64.add region 32) (← U64.mul i 32)
  let guid ← src.readExactAt entry 16
  let item ← U64.add region (← leU32 src (← U64.add entry 16)).toNat
  if guid = FILE_PARAMETERS then
    let blockSize ← leU32 src item
    let flags ← leU32 src (← U64.add item 4)
    return { found with blockSize := some blockSize, hasParent := flags &&& 0b10 ≠ 0 }
  else if guid = VIRTUAL_DISK_SIZE then
    return { found with virtualSize := some (← leU64 src item) }
  else if guid = LOGICAL_SECTOR_SIZE then
    return { found with sectorSize := some (← leU32 src item) }
  else
    return found

def Metadata.read (src : Source) (region : ℕ) (path : String) : Exec SourceError Metadata := do
  let bad (detail : String) := SourceError.malformed path "vhdx" detail
  let sig ← src.readExactAt region 8
  Exec.errIf (sig ≠ [0x6d, 0x65, 0x74, 0x61, 0x64, 0x61, 0x74, 0x61]) <| bad "no metadata table"
  let count ← leU16 src (← U64.add region 10)
  Exec.errIf (2047 < count) <| bad "absurd metadata entry count"
  let found ← (List.range count.toNat).foldlM (metadataEntry src region)
    { blockSize := none, virtualSize := none, sectorSize := none, hasParent := false }
  let blockSize ← Exec.okOr (bad "no file parameters") found.blockSize
  let virtualSize ← Exec.okOr (bad "no virtual disk size") found.virtualSize
  let logicalSectorSize ← Exec.okOr (bad "no logical sector size") found.sectorSize
  return { blockSize, virtualSize, logicalSectorSize, hasParent := found.hasParent }

def «open» (inner : Source) : Exec SourceError VhdxSource := do
  let path := inner.identity.path
  let bad (detail : String) := SourceError.malformed path "vhdx" detail
  let fileId ← inner.readExactAt 0 8
  Exec.errIf (fileId ≠ [0x76, 0x68, 0x64, 0x78, 0x66, 0x69, 0x6c, 0x65]) <|
    bad "bad file identifier"
  let (batOffset, metadata) ← regionTable inner path
  let info ← Metadata.read inner metadata.toNat path
  Exec.errIf (info.hasParent = true) <|
    .unsupported path "vhdx" "differencing disk with a parent is not supported"
  let blockSize := info.blockSize.toNat
  if h : (2 ^ 20 ≤ blockSize ∧ blockSize ≤ 2 ^ 28) ∧ info.logicalSectorSize ≠ 0 then
    let chunkRatio ← U64.div (← U64.mul 8388608 info.logicalSectorSize.toNat) blockSize
    let identity := { path, format := .vhdx }
    Exec.ok {
      inner, identity, batOffset, blockSize, chunkRatio := max chunkRatio 1
      virtualSize := info.virtualSize
      blockSize_mem := h.1
      chunkRatio_pos := by omega
    }
  else
    Exec.err <| bad "implausible block or sector size"

def locate (s : VhdxSource) (block : ℕ) : Exec SourceError (Option ℕ) := do
  let batIndex ← U64.add block (← U64.div block s.chunkRatio)
  let addr := U64.saturatingAdd s.batOffset.toNat (U64.saturatingMul batIndex 8)
  let entry ← leU64 s.inner addr
  if entry &&& 7 ≠ PAYLOAD_BLOCK_FULLY_PRESENT then
    return none
  return some (entry &&& OFFSET_MASK).toNat

def readAt (s : VhdxSource) : (offset len : ℕ) → Exec SourceError Bytes :=
  readSpans s.inner s.virtualSize.toNat s.blockSize s.locate
    fun host within => .ok (U64.saturatingAdd host within)

def toSource (s : VhdxSource) : Source where
  size     := s.virtualSize.toNat
  identity := s.identity
  readAt   := s.readAt

end

-- The guest byte at `x` as the block allocation table in the container maps it: after each run of
-- `chunkRatio` payload entries the table holds one bitmap entry.
def walk (s : VhdxSource) (content : Bytes) (x : ℕ) : Option UInt8 := do
  let b := x / s.blockSize
  let index := b / s.chunkRatio * (s.chunkRatio + 1) + b % s.chunkRatio
  let entry ← leU64? content (s.batOffset.toNat + index * 8)
  if entry &&& 7 ≠ PAYLOAD_BLOCK_FULLY_PRESENT then
    some 0
  else
    content[(entry &&& OFFSET_MASK).toNat + x % s.blockSize]?

-- What `locate` answers, over exact integers.
def located (s : VhdxSource) (content : Bytes) (block : ℕ) : Option (Option ℕ) := do
  let entry ← leU64? content (s.batOffset.toNat + (block + block / s.chunkRatio) * 8)
  if entry &&& 7 ≠ PAYLOAD_BLOCK_FULLY_PRESENT then
    some none
  else
    some (some (entry &&& OFFSET_MASK).toNat)

variable {s : VhdxSource} {content : Bytes}

-- Counting one bitmap entry for each full run is the index that skips one entry after each run.
theorem batIndex_eq (b ratio : ℕ) : b / ratio * (ratio + 1) + b % ratio = b + b / ratio := by
  have := Nat.div_add_mod' b ratio
  rw [Nat.mul_add]
  omega

theorem walk_eq_walkUnit (s : VhdxSource) (content : Bytes) :
    s.walk content = walkUnit content s.blockSize (s.located content) := by
  funext x
  simp only [walk, walkUnit, located, batIndex_eq, Option.bind_eq_bind]
  cases leU64? content _ with
  | none       => rfl
  | some entry => simp only [Option.bind_some]; split <;> rfl

variable [OverflowChecks]

theorem locate_refines (hc : s.inner.Conforming content) {block : ℕ} (hb : block < 2 ^ 44) :
    (s.locate block).Refines (s.located content block) := by
  have hp := s.chunkRatio_pos
  have hd := Nat.div_le_self block s.chunkRatio
  have hm : U64.saturatingMul (block + block / s.chunkRatio) 8 = (block + block / s.chunkRatio) * 8 := by
    simp only [U64.saturatingMul]
    omega
  simp only [locate, located, U64.div_eq hp, Exec.ok_bind]
  rw [U64.add_eq (by omega), Exec.ok_bind, hm]
  refine .bind (readField_saturatingAdd_refines hc (by omega) _ _ _) fun entry _ => ?_
  split <;> exact Exec.ok_refines _

theorem hostAt_exact (hc : s.inner.Conforming content) (x : ℕ) :
    HostAtExact s.inner content s.blockSize (s.located content)
      (fun host within => .ok (U64.saturatingAdd host within)) x :=
  fun _ _ => ⟨_, rfl, fun _ h₀ => readExactAt_saturatingAdd_refines hc h₀ _ _⟩

theorem readAt_refines (hc : s.inner.Conforming content) {offset : ℕ} (len : ℕ)
    (ho : offset ≤ s.virtualSize.toNat) :
    (s.readAt offset len).Refines
      ((List.range' offset (min len (s.virtualSize.toNat - offset))).mapM (s.walk content)) := by
  have ⟨hp, _⟩ := s.blockSize_mem
  rw [walk_eq_walkUnit]
  refine readSpans_refines (by omega) s.virtualSize.toNat_lt ho (fun x hx => locate_refines hc ?_)
    fun _ _ _ _ => hostAt_exact hc _
  have := Nat.div_le_div_left (a := x) hp (by omega)
  omega

-- What `open` has checked of the container, and where it takes the geometry from.
structure Opened (s : VhdxSource) (inner : Source) : Prop where
  inner_eq : s.inner = inner
  fileId   : inner.readExactAt 0 8 = .ok [0x76, 0x68, 0x64, 0x78, 0x66, 0x69, 0x6c, 0x65]
  regions  : ∃ metadata info, regionTable inner inner.identity.path = .ok (s.batOffset, metadata) ∧
    Metadata.read inner metadata.toNat inner.identity.path = .ok info ∧ info.hasParent = false ∧
    s.blockSize = info.blockSize.toNat ∧ s.virtualSize = info.virtualSize

theorem open_opened {inner : Source} (h : VhdxSource.open inner = .ok s) : s.Opened inner := by
  simp only [VhdxSource.open, Exec.bind_eq_ok, Exec.errIf_eq_ok, Decidable.not_not] at h
  obtain ⟨_, hf, _, rfl, ⟨bat, metadata⟩, ht, info, hm, _, hp, h⟩ := h
  split at h
  case isFalse => cases h
  case isTrue =>
    simp only [Exec.bind_eq_ok] at h
    obtain ⟨_, _, _, _, h⟩ := h
    cases h
    exact ⟨rfl, hf, _, _, ht, hm, Bool.eq_false_iff.mpr hp, rfl, rfl⟩

end VhdxSource
end Latent
