import Latent.Source.Vdisk.Basic

open Rust

namespace Latent

structure Qcow2Source where
  inner       : Source
  identity    : Identity
  clusterSize : ℕ
  l2Entries   : ℕ
  l1Offset    : UInt64
  l1Size      : UInt32
  virtualSize : UInt64
  clusterSize_eq : ∃ bits, 9 ≤ bits ∧ bits ≤ 21 ∧ clusterSize = 2 ^ bits
  l2Entries_eq   : l2Entries = clusterSize / 8

namespace Qcow2Source

open Vdisk

def MAGIC : Bytes :=
  [0x51, 0x46, 0x49, 0xfb]

def OFFSET_MASK : UInt64 :=
  0x00fffffffffffe00

def L2_COMPRESSED : UInt64 :=
  (1 : UInt64) <<< 62

section

variable [OverflowChecks]

def «open» (inner : Source) : Exec SourceError Qcow2Source := do
  let path := inner.identity.path
  let bad (detail : String) := SourceError.malformed path "qcow2" detail
  let magic ← inner.readExactAt 0 4
  Exec.errIf (magic ≠ MAGIC) <| bad "bad magic"
  Exec.errIf ((← beU32 inner 4) ≠ 3) <| bad "only version 3 is handled"
  Exec.errIf ((← beU64 inner 8) ≠ 0) <|
    .unsupported path "qcow2" "image references a backing file"
  Exec.errIf ((← beU32 inner 32) ≠ 0) <|
    .unsupported path "qcow2" "encrypted images are not supported"
  Exec.errIf ((← beU32 inner 60) ≠ 0) <|
    .unsupported path "qcow2" "internal snapshots are not supported"
  let clusterBits ← beU32 inner 20
  if h : 9 ≤ clusterBits.toNat ∧ clusterBits.toNat ≤ 21 then
    let clusterSize := 2 ^ clusterBits.toNat
    let virtualSize ← beU64 inner 24
    let l1Size ← beU32 inner 36
    let l1Offset ← beU64 inner 40
    let identity := { path, format := .qcow2 }
    Exec.ok {
      inner, identity, clusterSize, l2Entries := clusterSize / 8, l1Offset, l1Size, virtualSize
      clusterSize_eq := ⟨_, h.1, h.2, rfl⟩
      l2Entries_eq := rfl
    }
  else
    Exec.err <| bad "cluster_bits out of range"

def locate (s : Qcow2Source) (cluster : ℕ) : Exec SourceError (Option ℕ) := do
  let l1Index ← U64.div cluster s.l2Entries
  if s.l1Size.toNat ≤ l1Index then
    return none
  let l1At := U64.saturatingAdd s.l1Offset.toNat (← U64.mul l1Index 8)
  let l2Table := (← beU64 s.inner l1At) &&& OFFSET_MASK
  if l2Table = 0 then
    return none
  let l2Index ← U64.rem cluster s.l2Entries
  let entry ← beU64 s.inner (U64.saturatingAdd l2Table.toNat (← U64.mul l2Index 8))
  Exec.errIf (entry &&& L2_COMPRESSED ≠ 0) <|
    .unsupported s.identity.path "qcow2" "compressed clusters are not supported"
  let host := entry &&& OFFSET_MASK
  return if host ≠ 0 then some host.toNat else none

def readAt (s : Qcow2Source) : (offset len : ℕ) → Exec SourceError Bytes :=
  readSpans s.inner s.virtualSize.toNat s.clusterSize s.locate U64.add

def toSource (s : Qcow2Source) : Source where
  size     := s.virtualSize.toNat
  identity := s.identity
  readAt   := s.readAt

end

-- The guest byte at `x` as the tables in the container map it, straight from its address.
def walk (s : Qcow2Source) (content : Bytes) (x : ℕ) : Option UInt8 :=
  let cs := s.clusterSize
  let l1Slot := x / (cs * cs / 8)
  if s.l1Size.toNat ≤ l1Slot then
    some 0
  else do
    let l2Table := (← beU64? content (s.l1Offset.toNat + l1Slot * 8)) &&& OFFSET_MASK
    if l2Table = 0 then
      some 0
    else do
      let entry ← beU64? content (l2Table.toNat + x / cs % (cs / 8) * 8)
      if entry &&& L2_COMPRESSED ≠ 0 then
        none
      else if entry &&& OFFSET_MASK = 0 then
        some 0
      else
        content[(entry &&& OFFSET_MASK).toNat + x % cs]?

-- What `locate` answers, over exact integers.
def located (s : Qcow2Source) (content : Bytes) (cluster : ℕ) : Option (Option ℕ) :=
  let l1Slot := cluster / s.l2Entries
  if s.l1Size.toNat ≤ l1Slot then
    some none
  else do
    let l2Table := (← beU64? content (s.l1Offset.toNat + l1Slot * 8)) &&& OFFSET_MASK
    if l2Table = 0 then
      some none
    else do
      let entry ← beU64? content (l2Table.toNat + cluster % s.l2Entries * 8)
      if entry &&& L2_COMPRESSED ≠ 0 then
        none
      else if entry &&& OFFSET_MASK = 0 then
        some none
      else
        some (some (entry &&& OFFSET_MASK).toNat)

variable {s : Qcow2Source} {content : Bytes}

theorem clusterSize_dvd (s : Qcow2Source) : 8 ∣ s.clusterSize := by
  have ⟨bits, h, _, he⟩ := s.clusterSize_eq
  exact he ▸ Nat.pow_dvd_pow 2 (show 3 ≤ bits by omega)

theorem clusterSize_pos (s : Qcow2Source) : 0 < s.clusterSize := by
  have ⟨_, _, _, he⟩ := s.clusterSize_eq
  exact he ▸ Nat.two_pow_pos _

theorem clusterSize_le (s : Qcow2Source) : s.clusterSize ≤ 2 ^ 21 := by
  have ⟨_, _, h, he⟩ := s.clusterSize_eq
  exact he ▸ Nat.pow_le_pow_right (by omega) h

theorem l2Entries_pos (s : Qcow2Source) : 0 < s.l2Entries := by
  have := Nat.le_of_dvd s.clusterSize_pos s.clusterSize_dvd
  rw [s.l2Entries_eq]
  omega

theorem l2Entries_le (s : Qcow2Source) : s.l2Entries ≤ 2 ^ 18 := by
  have := s.clusterSize_le
  rw [s.l2Entries_eq]
  omega

-- The host address that an entry holds is masked to 56 bits.
theorem toNat_and_offset_mask_lt (entry : UInt64) : (entry &&& OFFSET_MASK).toNat < 2 ^ 56 := by
  rw [UInt64.toNat_and]
  exact Nat.and_lt_two_pow _ (by decide)

theorem located_lt {cluster host : ℕ} (h : s.located content cluster = some (some host)) :
    host < 2 ^ 56 := by
  simp only [located] at h
  split at h
  case isTrue => simp at h
  case isFalse =>
    simp only [Option.bind_eq_bind, Option.bind_eq_some_iff] at h
    obtain ⟨l1, _, h⟩ := h
    split at h
    case isTrue => simp at h
    case isFalse =>
      simp only [Option.bind_eq_some_iff] at h
      obtain ⟨entry, _, h⟩ := h
      split at h <;> [simp at h; split at h]
      case isTrue => simp at h
      case isFalse =>
        cases h
        exact toNat_and_offset_mask_lt entry

theorem walk_eq_walkUnit (s : Qcow2Source) (content : Bytes) :
    s.walk content = walkUnit content s.clusterSize (s.located content) := by
  funext x
  have hslot : x / (s.clusterSize * s.clusterSize / 8) = x / s.clusterSize / s.l2Entries := by
    rw [Nat.div_div_eq_div_mul, s.l2Entries_eq, Nat.mul_div_assoc _ s.clusterSize_dvd]
  simp only [walk, walkUnit, located, hslot, s.l2Entries_eq]
  split
  case isTrue => rfl
  case isFalse =>
    cases beU64? content _ with
    | none => rfl
    | some l1 =>
      simp only [Option.bind_eq_bind, Option.bind_some]
      split
      case isTrue => rfl
      case isFalse =>
        cases beU64? content _ with
        | none       => rfl
        | some entry => simp only [Option.bind_some]; split <;> [rfl; split <;> rfl]

variable [OverflowChecks]

theorem locate_refines (hc : s.inner.Conforming content) (cluster : ℕ) :
    (s.locate cluster).Refines (s.located content cluster) := by
  have hp := s.l2Entries_pos
  have hle := s.l2Entries_le
  have hr := Nat.mod_lt cluster hp
  have hm : cluster % s.l2Entries * 8 < 2 ^ 64 := by omega
  have hs := s.l1Size.toNat_lt
  simp only [locate, located, U64.div_eq hp, U64.rem_eq hp, U64.mul_eq hm, Exec.ok_bind]
  split
  case isTrue => exact Exec.ok_refines _
  case isFalse hlt =>
    rw [U64.mul_eq (by omega), Exec.ok_bind]
    refine .bind (readField_saturatingAdd_refines hc (by omega) _ _ _) fun l1 _ => ?_
    split
    case isTrue => exact Exec.ok_refines _
    case isFalse =>
      refine .bind (readField_saturatingAdd_refines hc (by omega) _ _ _) fun entry _ => ?_
      by_cases hz : entry &&& L2_COMPRESSED = 0
      case neg => simp [hz]
      case pos => by_cases hh : entry &&& OFFSET_MASK = 0 <;> simp [hz, hh]

theorem hostAt_exact (hc : s.inner.Conforming content) (x : ℕ) :
    HostAtExact s.inner content s.clusterSize (s.located content) U64.add x := by
  intro host hl
  have hm := Nat.mod_lt x s.clusterSize_pos
  have hle := s.clusterSize_le
  have hh : host < 2 ^ 56 := s.located_lt hl
  exact ⟨_, U64.add_eq (by omega), fun _ h₀ => readExactAt_refines hc h₀ _⟩

theorem readAt_refines (hc : s.inner.Conforming content) {offset : ℕ} (len : ℕ)
    (ho : offset ≤ s.virtualSize.toNat) :
    (s.readAt offset len).Refines
      ((List.range' offset (min len (s.virtualSize.toNat - offset))).mapM (s.walk content)) := by
  rw [walk_eq_walkUnit]
  exact readSpans_refines s.clusterSize_pos s.virtualSize.toNat_lt ho
    (fun _ _ => locate_refines hc _) fun _ _ _ _ => hostAt_exact hc _

-- What `open` has checked of the container's header, and where it takes the geometry from.
structure Opened (s : Qcow2Source) (inner : Source) : Prop where
  inner_eq    : s.inner = inner
  magic       : inner.readExactAt 0 4 = .ok MAGIC
  version     : beU32 inner 4 = .ok 3
  backing     : beU64 inner 8 = .ok 0
  encryption  : beU32 inner 32 = .ok 0
  snapshots   : beU32 inner 60 = .ok 0
  virtualSize : beU64 inner 24 = .ok s.virtualSize
  l1Size      : beU32 inner 36 = .ok s.l1Size
  l1Offset    : beU64 inner 40 = .ok s.l1Offset

theorem open_opened {inner : Source} (h : Qcow2Source.open inner = .ok s) : s.Opened inner := by
  simp only [Qcow2Source.open, Exec.bind_eq_ok, Exec.errIf_eq_ok, Decidable.not_not] at h
  obtain ⟨_, hm, _, rfl, _, hv, _, rfl, _, hb, _, rfl, _, he, _, rfl, _, hn, _, rfl, bits, _, h⟩ := h
  split at h
  case isTrue =>
    simp only [Exec.bind_eq_ok] at h
    obtain ⟨_, hs, _, hl, _, ho, h⟩ := h
    cases h
    exact ⟨rfl, hm, hv, hb, he, hn, hs, hl, ho⟩
  case isFalse => cases h

end Qcow2Source
end Latent
