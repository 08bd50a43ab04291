import Latent.Source.Vdisk.Basic
import Latent.Text.Utf8
import Latent.Text.Lines

open Rust

namespace Latent

structure VmdkSource where
  inner       : Source
  identity    : Identity
  grainBytes  : ℕ
  gtesPerGt   : UInt32
  gdOffset    : UInt64
  virtualSize : ℕ
  grainBytes_pos  : 512 ≤ grainBytes
  gtesPerGt_ne    : gtesPerGt ≠ 0
  virtualSize_lt  : virtualSize < 2 ^ 64

namespace VmdkSource

open Vdisk

def MAGIC : Bytes :=
  [0x4b, 0x44, 0x4d, 0x56]

def SECTOR : ℕ :=
  512

def FLAG_COMPRESSED : UInt32 :=
  (1 : UInt32) <<< 16

theorem le_mul_sector {n : UInt64} (h : n ≠ 0) : 512 ≤ n.toNat * SECTOR := by
  have : n.toNat ≠ 0 := fun he => h (UInt64.toNat_inj.mp he)
  simp only [SECTOR]
  omega

section

variable [OverflowChecks]

def isParent (line : List Char) : Bool :=
  match Text.stripPrefix "parentCID".toList (Text.trim line) with
  | some rest =>
    let value := Text.trim <| Text.trimStartMatches (fun c => c = ' ' || c = '=') rest
    !Text.eqIgnoreAsciiCase value "ffffffff".toList
  | none => false

def rejectIfHasParent (src : Source) (path : String) (descriptorOffset descriptorSize : ℕ) :
    Exec SourceError Unit :=
  if descriptorOffset = 0 ∨ descriptorSize = 0 then
    .ok ()
  else do
    let len := min (U64.saturatingMul descriptorSize SECTOR) (64 * 1024)
    let text ← src.readAt (U64.saturatingMul descriptorOffset SECTOR) len
    Exec.errIf ((Text.lines (Text.fromUtf8Lossy text)).any isParent) <| .unsupported path "vmdk"
      "image references a parent; only standalone images are supported"

def «open» (inner : Source) : Exec SourceError VmdkSource := do
  let path := inner.identity.path
  let bad (detail : String) := SourceError.malformed path "vmdk" detail
  let magic ← inner.readExactAt 0 4
  Exec.errIf (magic ≠ MAGIC) <| bad "bad magic"
  Exec.errIf ((← leU32 inner 8) &&& FLAG_COMPRESSED ≠ 0) <|
    .unsupported path "vmdk" "compressed grains are not supported"
  let capacity ← leU64 inner 12
  let grainSectors ← leU64 inner 20
  let descriptorOffset ← leU64 inner 28
  let descriptorSize ← leU64 inner 36
  let gtesPerGt ← leU32 inner 44
  let gdOffset ← leU64 inner 56
  if h : grainSectors ≠ 0 ∧ gtesPerGt ≠ 0 ∧ gdOffset ≠ 0 then
    if grainSectors.toNat * SECTOR < 2 ^ 64 then
      if hv : capacity.toNat * SECTOR < 2 ^ 64 then
        rejectIfHasParent inner path descriptorOffset.toNat descriptorSize.toNat
        let identity := { path, format := .vmdk }
        Exec.ok {
          inner, identity, grainBytes := grainSectors.toNat * SECTOR, gtesPerGt, gdOffset
          virtualSize := capacity.toNat * SECTOR
          grainBytes_pos := le_mul_sector h.1
          gtesPerGt_ne := h.2.1
          virtualSize_lt := hv
        }
      else
        Exec.err <| bad "capacity overflow"
    else
      Exec.err <| bad "grain size overflow"
  else
    Exec.err <| bad "zero grain size, GT size or grain directory offset"

def locate (s : VmdkSource) (grain : ℕ) : Exec SourceError (Option ℕ) := do
  let gdIndex ← U64.div grain s.gtesPerGt.toNat
  let gdeAt := U64.saturatingAdd (U64.saturatingMul s.gdOffset.toNat SECTOR) (← U64.mul gdIndex 4)
  let gtSector ← leU32 s.inner gdeAt
  if gtSector = 0 then
    return none
  let gtIndex ← U64.rem grain s.gtesPerGt.toNat
  let gteAt := U64.saturatingAdd (U64.saturatingMul gtSector.toNat SECTOR) (← U64.mul gtIndex 4)
  let grainSector ← leU32 s.inner gteAt
  if grainSector = 0 then
    return none
  return some (← U64.mul grainSector.toNat SECTOR)

def readAt (s : VmdkSource) : (offset len : ℕ) → Exec SourceError Bytes :=
  readSpans s.inner s.virtualSize s.grainBytes s.locate U64.add

def toSource (s : VmdkSource) : Source where
  size     := s.virtualSize
  identity := s.identity
  readAt   := s.readAt

end

-- The guest byte at `x` as the grain directory and tables in the container map it.
def walk (s : VmdkSource) (content : Bytes) (x : ℕ) : Option UInt8 := do
  let gtes := s.gtesPerGt.toNat
  let gtSector ← leU32? content (s.gdOffset.toNat * 512 + x / (s.grainBytes * gtes) * 4)
  if gtSector = 0 then
    some 0
  else do
    let grainSector ← leU32? content (gtSector.toNat * 512 + x / s.grainBytes % gtes * 4)
    if grainSector = 0 then
      some 0
    else
      content[grainSector.toNat * 512 + x % s.grainBytes]?

-- What `locate` answers, over exact integers.
def located (s : VmdkSource) (content : Bytes) (grain : ℕ) : Option (Option ℕ) := do
  let gtes := s.gtesPerGt.toNat
  let gtSector ← leU32? content (s.gdOffset.toNat * 512 + grain / gtes * 4)
  if gtSector = 0 then
    some none
  else do
    let grainSector ← leU32? content (gtSector.toNat * 512 + grain % gtes * 4)
    if grainSector = 0 then
      some none
    else
      some (some (grainSector.toNat * 512))

variable {s : VmdkSource} {content : Bytes}

theorem gtesPerGt_pos (s : VmdkSource) : 0 < s.gtesPerGt.toNat :=
  Nat.pos_iff_ne_zero.mpr fun he => s.gtesPerGt_ne (UInt32.toNat_inj.mp he)

theorem walk_eq_walkUnit (s : VmdkSource) (content : Bytes) :
    s.walk content = walkUnit content s.grainBytes (s.located content) := by
  funext x
  simp only [walk, walkUnit, located, Nat.div_div_eq_div_mul, Option.bind_eq_bind]
  cases leU32? content _ with
  | none => rfl
  | some gt =>
    simp only [Option.bind_some]
    split
    case isTrue => rfl
    case isFalse =>
      cases leU32? content _ with
      | none       => rfl
      | some grain => simp only [Option.bind_some]; split <;> rfl

theorem located_lt {grain host : ℕ} (h : s.located content grain = some (some host)) :
    host < 2 ^ 41 := by
  simp only [located, Option.bind_eq_bind, Option.bind_eq_some_iff] at h
  obtain ⟨gt, _, h⟩ := h
  split at h
  case isTrue => simp at h
  case isFalse =>
    simp only [Option.bind_eq_some_iff] at h
    obtain ⟨sector, _, h⟩ := h
    split at h
    case isTrue => simp at h
    case isFalse =>
      cases h
      have := sector.toNat_lt
      omega

-- The one address the loop sums that may not fit: the host byte of the first position it reads. At
-- every later span the position in the grain is zero.
def SumFits (s : VmdkSource) (content : Bytes) (offset : ℕ) : Prop :=
  ∀ host, s.located content (offset / s.grainBytes) = some (some host) →
    host + offset % s.grainBytes < 2 ^ 64

variable [OverflowChecks]

theorem locate_refines (hc : s.inner.Conforming content) {grain : ℕ} (hg : grain < 2 ^ 55) :
    (s.locate grain).Refines (s.located content grain) := by
  have hp := s.gtesPerGt_pos
  have hd := Nat.div_le_self grain s.gtesPerGt.toNat
  have hr := Nat.mod_lt grain hp
  have hs := s.gtesPerGt.toNat_lt
  simp only [locate, located, U64.div_eq hp, U64.rem_eq hp, Exec.ok_bind]
  rw [U64.mul_eq (by omega), U64.mul_eq (by omega), Exec.ok_bind]
  refine .bind (readField_saturating_refines hc (by omega) _ _ _ _) fun gt _ => ?_
  split
  case isTrue => exact Exec.ok_refines _
  case isFalse =>
    rw [Exec.ok_bind]
    refine .bind (readField_saturating_refines hc (by omega) _ _ _ _) fun grain _ => ?_
    split
    case isTrue => exact Exec.ok_refines _
    case isFalse =>
      have := grain.toNat_lt
      rw [U64.mul_eq (by simp only [SECTOR]; omega)]
      exact Exec.ok_refines _

theorem hostAt_exact (hc : s.inner.Conforming content) {offset x : ℕ} (hs : s.SumFits content offset)
    (hx : x = offset ∨ x % s.grainBytes = 0) :
    HostAtExact s.inner content s.grainBytes (s.located content) U64.add x := by
  intro host hl
  have hfit : host + x % s.grainBytes < 2 ^ 64 := by
    cases hx with
    | inl h => exact h ▸ hs host (h ▸ hl)
    | inr h => have := located_lt hl; omega
  exact ⟨_, U64.add_eq hfit, fun _ h₀ => readExactAt_refines hc h₀ _⟩

theorem readAt_refines (hc : s.inner.Conforming content) {offset : ℕ} (len : ℕ)
    (ho : offset ≤ s.virtualSize) (hs : s.SumFits content offset) :
    (s.readAt offset len).Refines
      ((List.range' offset (min len (s.virtualSize - offset))).mapM (s.walk content)) := by
  have hp := s.grainBytes_pos
  rw [walk_eq_walkUnit]
  refine readSpans_refines (by omega) s.virtualSize_lt ho (fun x hx => locate_refines hc ?_)
    fun _ _ _ hx => hostAt_exact hc hs hx
  have := Nat.div_le_div_left (a := x) hp (by omega)
  omega

-- What `open` has checked of the container's header, and where it takes the geometry from.
structure Opened (s : VmdkSource) (inner : Source) : Prop where
  inner_eq    : s.inner = inner
  magic       : inner.readExactAt 0 4 = .ok MAGIC
  flags       : ∃ flags, leU32 inner 8 = .ok flags ∧ flags &&& FLAG_COMPRESSED = 0
  virtualSize : ∃ capacity, leU64 inner 12 = .ok capacity ∧ s.virtualSize = capacity.toNat * SECTOR
  grainBytes  : ∃ sectors, leU64 inner 20 = .ok sectors ∧ s.grainBytes = sectors.toNat * SECTOR
  gtesPerGt   : leU32 inner 44 = .ok s.gtesPerGt
  gdOffset    : leU64 inner 56 = .ok s.gdOffset
  standalone  : ∃ offset size, leU64 inner 28 = .ok offset ∧ leU64 inner 36 = .ok size ∧
    rejectIfHasParent inner inner.identity.path offset.toNat size.toNat = .ok ()

theorem open_opened {inner : Source} (h : VmdkSource.open inner = .ok s) : s.Opened inner := by
  simp only [VmdkSource.open, Exec.bind_eq_ok, Exec.errIf_eq_ok, Decidable.not_not] at h
  obtain ⟨_, hm, _, rfl, flags, hf, _, hc, capacity, hv, sectors, hs, offset, ho, size, hd, gtes, hg,
    gd, hgd, h⟩ := h
  split at h
  case isFalse => cases h
  case isTrue =>
    split at h
    case isFalse => cases h
    case isTrue =>
      split at h
      case isFalse => cases h
      case isTrue =>
        simp only [Exec.bind_eq_ok] at h
        obtain ⟨_, hp, h⟩ := h
        cases h
        exact ⟨rfl, hm, ⟨_, hf, hc⟩, ⟨_, hv, rfl⟩, ⟨_, hs, rfl⟩, hg, hgd, _, _, ho, hd, hp⟩

end VmdkSource
end Latent
