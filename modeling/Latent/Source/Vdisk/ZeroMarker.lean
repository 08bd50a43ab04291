import Latent.Source.Vdisk.Disk

open Rust

namespace Latent

-- Bit 0 of a standard L2 entry: the cluster reads as zeros, whatever host cluster the entry names.
-- Only images of version 3 have it, and no others are opened.
def Qcow2Source.L2_ALL_ZEROS : UInt64 :=
  1

-- Bit 2 of the header flags: a grain table entry of 1 stands for a grain of zeros.
def VmdkSource.FLAG_ZEROED_GRAIN : UInt32 :=
  (1 : UInt32) <<< 2

-- The states in which a payload block holds data. In all others there is none to read.
def VhdxSource.PAYLOAD_BLOCK_PARTIALLY_PRESENT : UInt64 :=
  7

-- The L2 entry, the grain table entry and the BAT entry that map the guest byte at `x`.
def Qcow2Source.l2Entry (s : Qcow2Source) (content : Bytes) (x : ℕ) : Option UInt64 :=
  let cs := s.clusterSize
  let l1Slot := x / (cs * cs / 8)
  if s.l1Size.toNat ≤ l1Slot then
    none
  else do
    let l2Table := (← Vdisk.beU64? content (s.l1Offset.toNat + l1Slot * 8)) &&& OFFSET_MASK
    if l2Table = 0 then
      none
    else
      Vdisk.beU64? content (l2Table.toNat + x / cs % (cs / 8) * 8)

def VmdkSource.gtEntry (s : VmdkSource) (content : Bytes) (x : ℕ) : Option UInt32 := do
  let gtes := s.gtesPerGt.toNat
  let gtSector ← Vdisk.leU32? content (s.gdOffset.toNat * 512 + x / (s.grainBytes * gtes) * 4)
  if gtSector = 0 then
    none
  else
    Vdisk.leU32? content (gtSector.toNat * 512 + x / s.grainBytes % gtes * 4)

def VhdxSource.batEntry (s : VhdxSource) (content : Bytes) (x : ℕ) : Option UInt64 :=
  let b := x / s.blockSize
  let index := b / s.chunkRatio * (s.chunkRatio + 1) + b % s.chunkRatio
  Vdisk.leU64? content (s.batOffset.toNat + index * 8)

namespace Disk

open Qcow2Source VmdkSource VhdxSource

-- The entry that maps the guest byte at `x` carries its format's marker for an explicit zero.
inductive ZeroMarked (content : Bytes) (x : ℕ) : Disk → Prop
  | qcow2 {s : Qcow2Source} {entry} : s.l2Entry content x = some entry →
    entry &&& L2_COMPRESSED = 0 → entry &&& L2_ALL_ZEROS ≠ 0 → ZeroMarked content x (.qcow2 s)
  | vmdk {s : VmdkSource} {flags} : Vdisk.leU32? content 8 = some flags →
    flags &&& FLAG_ZEROED_GRAIN ≠ 0 → s.gtEntry content x = some 1 → ZeroMarked content x (.vmdk s)
  | vhdx {s : VhdxSource} {entry} : s.batEntry content x = some entry →
    entry &&& 7 ≠ PAYLOAD_BLOCK_FULLY_PRESENT → entry &&& 7 ≠ PAYLOAD_BLOCK_PARTIALLY_PRESENT →
    ZeroMarked content x (.vhdx s)

-- The container byte that a zero-marked entry names all the same: the preallocated host cluster
-- next to the flag, and the sector that the marker is the number of.
def staleByte (content : Bytes) (x : ℕ) : Disk → Option ℕ
  | .qcow2 s => (s.l2Entry content x).bind fun entry =>
    if entry &&& Qcow2Source.OFFSET_MASK = 0 then none
    else some ((entry &&& Qcow2Source.OFFSET_MASK).toNat + x % s.clusterSize)
  | .vmdk s => some (512 + x % s.grainBytes)
  | .vhdx _ => none

section

variable [OverflowChecks]

-- The byte at `x` can be read, and every read that returns it returns zero.
def ReadsZero (d : Disk) (content : Bytes) (x : ℕ) : Prop :=
  d.readAt x 1 = .ok [0] ∧ ∀ offset len bytes, offset ≤ x → x < offset + len →
    d.SumFits content offset → d.readAt offset len = .ok bytes → bytes[x - offset]? = some 0

variable {inner : Source} {content : Bytes} {d : Disk} {x : ℕ}

omit [OverflowChecks] in
theorem Qcow2Source.walk_of_l2Entry {s : Qcow2Source} {entry : UInt64}
    (h : s.l2Entry content x = some entry) (hc : entry &&& L2_COMPRESSED = 0) :
    s.walk content x =
      if entry &&& Qcow2Source.OFFSET_MASK = 0 then some 0
      else content[(entry &&& Qcow2Source.OFFSET_MASK).toNat + x % s.clusterSize]? := by
  simp only [l2Entry] at h
  simp only [Qcow2Source.walk]
  split at h
  case isTrue => cases h
  case isFalse hl =>
    rw [if_neg hl]
    simp only [Option.bind_eq_bind, Option.bind_eq_some_iff] at h ⊢
    obtain ⟨l1, h₁, h⟩ := h
    split at h
    case isTrue => cases h
    case isFalse ht =>
      simp only [h₁, Option.bind_some, if_neg ht, h]
      exact if_neg (by simp [hc])

omit [OverflowChecks] in
theorem VmdkSource.walk_of_gtEntry {s : VmdkSource} (h : s.gtEntry content x = some 1) :
    s.walk content x = content[512 + x % s.grainBytes]? := by
  simp only [gtEntry, Option.bind_eq_bind, Option.bind_eq_some_iff] at h
  obtain ⟨gt, h₁, h⟩ := h
  split at h
  case isTrue => cases h
  case isFalse ht => simp [VmdkSource.walk, h₁, ht, h]

omit [OverflowChecks] in
theorem VmdkSource.located_of_gtEntry {s : VmdkSource} (h : s.gtEntry content x = some 1) :
    s.located content (x / s.grainBytes) = some (some 512) := by
  simp only [gtEntry, Option.bind_eq_bind, Option.bind_eq_some_iff] at h
  obtain ⟨gt, h₁, h⟩ := h
  split at h
  case isTrue => cases h
  case isFalse ht => simp [VmdkSource.located, Nat.div_div_eq_div_mul, h₁, ht, h]

omit [OverflowChecks] in
-- What the walk makes of a marked byte: the marker is not looked at, the stale byte is.
theorem walk_of_zeroMarked (h : d.ZeroMarked content x) :
    d.walk content x = match d.staleByte content x with
      | some addr => content[addr]?
      | none      => some 0 := by
  cases h with
  | qcow2 he hc _ =>
    rw [Disk.walk, Qcow2Source.walk_of_l2Entry he hc]
    simp only [staleByte, he, Option.bind_some]
    split <;> rfl
  | vmdk _ _ he => exact VmdkSource.walk_of_gtEntry he
  | vhdx he h₆ _ =>
    simp only [batEntry] at he
    simp [Disk.walk, VhdxSource.walk, he, h₆, staleByte]

theorem readsZero_iff_walk (hd : d.Opened inner) (hc : inner.Conforming content)
    (hx : x < d.virtualSize) (hs : d.SumFits content x) :
    d.ReadsZero content x ↔ d.walk content x = some 0 := by
  have hn : min 1 (d.virtualSize - x) = 1 := by omega
  have hr := readAt_refines (hd.inner_eq ▸ hc) 1 (by omega) hs
  rw [hn] at hr
  constructor
  case mp =>
    intro ⟨h, _⟩
    have := mapM_range'_eq_some_iff.mp ((hr.ok_iff _).mp h)
    simpa using this.2 0 (by omega)
  case mpr =>
    intro h
    refine ⟨(hr.ok_iff _).mpr <| mapM_range'_eq_some_iff.mpr ⟨rfl, fun i hi => ?_⟩, ?_⟩
    · cases Nat.lt_one_iff.mp hi
      exact h
    · intro offset len bytes ho hlt hf hb
      have hr := readAt_refines (hd.inner_eq ▸ hc) len (by omega) hf
      have ⟨_, hw⟩ := mapM_range'_eq_some_iff.mp ((hr.ok_iff _).mp hb)
      have := hw (x - offset) (by omega)
      rw [Nat.add_sub_cancel' ho, h] at this
      exact this.symm

-- The sector number 1 is small enough for the sum to fit on every disk.
theorem sumFits_of_zeroMarked (hd : d.Opened inner) (hx : x < d.virtualSize)
    (h : d.ZeroMarked content x) : d.SumFits content x := by
  cases h with
  | qcow2 | vhdx => trivial
  | @vmdk s flags _ _ he =>
    cases hd with
    | vmdk ho =>
      intro host hl
      rw [VmdkSource.located_of_gtEntry he] at hl
      cases hl
      have ⟨capacity, _, hv⟩ := (VmdkSource.open_opened ho).virtualSize
      have hle := Nat.mod_le x s.grainBytes
      have hlt := s.virtualSize_lt
      simp only [virtualSize, hv, SECTOR] at hx hlt
      omega

-- A zero-marked byte reads as zero exactly when the container byte that its entry still names,
-- where it names one, happens to be zero.
theorem readsZero_iff (hd : d.Opened inner) (hc : inner.Conforming content)
    (hx : x < d.virtualSize) (h : d.ZeroMarked content x) :
    d.ReadsZero content x ↔ ∀ addr, d.staleByte content x = some addr → content[addr]? = some 0 := by
  rw [readsZero_iff_walk hd hc hx (sumFits_of_zeroMarked hd hx h), walk_of_zeroMarked h]
  cases d.staleByte content x <;> simp

end

-- An image with zeroed grains: the directory, the table and the entry for the only grain are all in
-- sector 1, which the entry's value is the number of.
def vmdkImage : Bytes :=
  [0x4b, 0x44, 0x4d, 0x56, 1, 0, 0, 0, 5, 0, 0, 0] ++ Bytes.toLE 8 1 ++ Bytes.toLE 8 1 ++
    List.replicate 16 0 ++ Bytes.toLE 4 1 ++ List.replicate 8 0 ++ Bytes.toLE 8 1 ++
    List.replicate 448 0 ++ [1, 0, 0, 0]

section

attribute [local instance] OverflowChecks.off

theorem qcow2Image_zeroMarked :
    ∃ d : Disk, d.Opened (rawSource (qcow2Image 1025 [7])) ∧ 0 < d.virtualSize ∧
      d.ZeroMarked (qcow2Image 1025 [7]) 0 ∧ d.staleByte (qcow2Image 1025 [7]) 0 = some 1024 := by
  have h : (Qcow2Source.open (rawSource (qcow2Image 1025 [7])) >>= fun s =>
      .ok (s.l2Entry (qcow2Image 1025 [7]) 0, s.virtualSize)) = .ok (some 1025, 512) := by
    decide +kernel
  have ⟨s, ho, hs⟩ := Exec.bind_eq_ok.mp h
  simp only [Exec.ok.injEq, Prod.mk.injEq] at hs
  refine ⟨.qcow2 s, .qcow2 ho, by simp [virtualSize, hs.2], ?marked, ?stale⟩
  case marked => exact .qcow2 hs.1 (by decide) (by decide)
  case stale  => simp only [staleByte, hs.1, Nat.zero_mod]; decide

theorem vmdkImage_zeroMarked :
    ∃ d : Disk, d.Opened (rawSource vmdkImage) ∧ 0 < d.virtualSize ∧
      d.ZeroMarked vmdkImage 0 ∧ d.staleByte vmdkImage 0 = some 512 := by
  have h : (VmdkSource.open (rawSource vmdkImage) >>= fun s =>
      .ok (s.gtEntry vmdkImage 0, s.virtualSize)) = .ok (some 1, 512) := by
    decide +kernel
  have ⟨s, ho, hs⟩ := Exec.bind_eq_ok.mp h
  simp only [Exec.ok.injEq, Prod.mk.injEq] at hs
  have hf : Vdisk.leU32? vmdkImage 8 = some 5 := by decide +kernel
  exact ⟨.vmdk s, .vmdk ho, by simp [virtualSize, hs.2], .vmdk hf (by decide) hs.1, by simp [staleByte]⟩

theorem readsZero_iff_qcow2Image :
    ∃ d : Disk, d.Opened (rawSource (qcow2Image 1025 [7])) ∧
      (d.ReadsZero (qcow2Image 1025 [7]) 0 ↔ ∀ addr,
        d.staleByte (qcow2Image 1025 [7]) 0 = some addr → (qcow2Image 1025 [7])[addr]? = some 0) := by
  have ⟨d, ho, hv, hz, _⟩ := qcow2Image_zeroMarked
  exact ⟨d, ho, readsZero_iff ho (rawSource_conforming (by decide +kernel)) hv hz⟩

-- In both images the marked byte is served from the container: the stale 7, and the entry itself.
theorem not_readsZero_of_stale :
    (∃ d : Disk, d.Opened (rawSource (qcow2Image 1025 [7])) ∧ 0 < d.virtualSize ∧
      d.ZeroMarked (qcow2Image 1025 [7]) 0 ∧ ¬d.ReadsZero (qcow2Image 1025 [7]) 0) ∧
    (∃ d : Disk, d.Opened (rawSource vmdkImage) ∧ 0 < d.virtualSize ∧
      d.ZeroMarked vmdkImage 0 ∧ ¬d.ReadsZero vmdkImage 0) := by
  constructor
  case left =>
    have ⟨d, ho, hv, hz, hs⟩ := qcow2Image_zeroMarked
    refine ⟨d, ho, hv, hz, ?_⟩
    rw [readsZero_iff_walk ho (rawSource_conforming (by decide +kernel)) hv
      (sumFits_of_zeroMarked ho hv hz), walk_of_zeroMarked hz, hs]
    decide +kernel
  case right =>
    have ⟨d, ho, hv, hz, hs⟩ := vmdkImage_zeroMarked
    refine ⟨d, ho, hv, hz, ?_⟩
    rw [readsZero_iff_walk ho (rawSource_conforming (by decide +kernel)) hv
      (sumFits_of_zeroMarked ho hv hz), walk_of_zeroMarked hz, hs]
    decide +kernel

end

end Disk
end Latent
