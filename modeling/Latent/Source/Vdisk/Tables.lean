import Latent.Source.Vdisk.Lookups

open Rust

namespace Latent

open Vdisk

namespace VhdxSource

-- Where the `i`-th entry of the region table is.
def regionAt (i : ℕ) : ℕ :=
  REGION_TABLE + 16 + i * 32

-- Of the first `n` entries of the region table, the last one that is the BAT's.
def batEntryAt (content : Bytes) : (n : ℕ) → Option ℕ
  | 0     => none
  | n + 1 => if getRange content (regionAt n) 16 = some BAT_REGION then some n else batEntryAt content n

-- File offset and length of the BAT region, as the region table declares them.
def batRegion (content : Bytes) : Option (UInt64 × UInt32) := do
  let count ← leU32? content (REGION_TABLE + 8)
  let i ← batEntryAt content count.toNat
  let fileOffset ← leU64? content (regionAt i + 16)
  let length ← leU32? content (regionAt i + 24)
  return (fileOffset, length)

section

variable [OverflowChecks] {inner : Source} {content : Bytes} {s : VhdxSource}

-- A region table of two entries of which the first one alone is the BAT's.
theorem batRegion_of_first (hc : inner.Conforming content) {fileOffset : UInt64} {length : UInt32}
    (hcount : leU32 inner (REGION_TABLE + 8) = .ok 2)
    (h₀ : inner.readExactAt (regionAt 0) 16 = .ok BAT_REGION)
    (h₁ : ∃ guid, inner.readExactAt (regionAt 1) 16 = .ok guid ∧ guid ≠ BAT_REGION)
    (hf : leU64 inner (regionAt 0 + 16) = .ok fileOffset)
    (hl : leU32 inner (regionAt 0 + 24) = .ok length) : batRegion content = some (fileOffset, length) := by
  have ⟨guid, hg, hne⟩ := h₁
  have hcount : leU32? content (REGION_TABLE + 8) = some 2 :=
    ((readField_refines hc _ (by decide) _).ok_iff _).mp hcount
  have hf : leU64? content (regionAt 0 + 16) = some fileOffset :=
    ((readField_refines hc _ (by decide) _).ok_iff _).mp hf
  have hl : leU32? content (regionAt 0 + 24) = some length :=
    ((readField_refines hc _ (by decide) _).ok_iff _).mp hl
  have h₀ := ((readExactAt_refines hc (by decide) _).ok_iff _).mp h₀
  have hg := ((readExactAt_refines hc (by decide) _).ok_iff _).mp hg
  have hentry : batEntryAt content 2 = some 0 := by
    rw [batEntryAt, hg, if_neg fun he => hne (Option.some.inj he), batEntryAt, if_pos h₀]
  simp [batRegion, hcount, hentry, hf, hl]

theorem regionEntry_bat (hc : inner.Conforming content) {found found' : Regions} {i : ℕ} (hi : i < 2047)
    (h : regionEntry inner found i = .ok found') :
    found'.bat = if getRange content (regionAt i) 16 = some BAT_REGION then
      leU64? content (regionAt i + 16) else found.bat := by
  have hat : REGION_TABLE + 16 + i * 32 = regionAt i := rfl
  have hlt : regionAt i + 16 < 2 ^ 64 := by simp only [regionAt, REGION_TABLE]; omega
  simp only [regionEntry] at h
  rw [U64.add_eq (by decide), Exec.ok_bind, U64.mul_eq (by omega), Exec.ok_bind, U64.add_eq (by omega),
    Exec.ok_bind, hat, U64.add_eq hlt] at h
  obtain ⟨guid, hg, h⟩ := Exec.bind_eq_ok.mp h
  rw [Exec.ok_bind] at h
  obtain ⟨fileOffset, hf, h⟩ := Exec.bind_eq_ok.mp h
  have hg := ((readExactAt_refines hc (by decide) _).ok_iff _).mp hg
  have hf : leU64? content (regionAt i + 16) = some fileOffset :=
    ((readField_refines hc _ (by decide) _).ok_iff _).mp hf
  rw [hg, hf]
  by_cases hb : guid = BAT_REGION
  case pos =>
    rw [if_pos hb] at h
    cases h
    rw [if_pos (congrArg some hb)]
  case neg =>
    rw [if_neg hb] at h
    rw [if_neg fun he => hb (Option.some.inj he)]
    split at h <;> cases h <;> rfl

-- The scan of the region table keeps the last BAT entry that it comes to.
theorem regions_bat (hc : inner.Conforming content) {n : ℕ} (hn : n ≤ 2047) {found : Regions}
    (h : (List.range n).foldlM (regionEntry inner) { bat := none, metadata := none } = .ok found) :
    found.bat = (batEntryAt content n).bind fun i => leU64? content (regionAt i + 16) := by
  induction n generalizing found with
  | zero =>
    cases h
    rfl
  | succ n hi =>
    rw [List.range_succ, List.foldlM_append] at h
    obtain ⟨before, hb, h⟩ := Exec.bind_eq_ok.mp h
    rw [List.foldlM_cons] at h
    obtain ⟨_, he, h⟩ := Exec.bind_eq_ok.mp h
    cases h
    rw [regionEntry_bat hc (by omega) he, batEntryAt]
    split
    case isTrue  => rfl
    case isFalse => exact hi (by omega) hb

theorem regionTable_bat (hc : inner.Conforming content) {path : String} {bat metadata : UInt64}
    (h : regionTable inner path = .ok (bat, metadata)) {fileOffset : UInt64} {length : UInt32}
    (hr : batRegion content = some (fileOffset, length)) : bat = fileOffset := by
  simp only [regionTable] at h
  rw [U64.add_eq (by decide), Exec.ok_bind] at h
  simp only [Exec.bind_eq_ok, Exec.errIf_eq_ok] at h
  obtain ⟨_, _, _, _, count, hcount, _, hle, found, hfound, h⟩ := h
  have hle : count.toNat ≤ 2047 := UInt32.le_iff_toNat_le.mp (UInt32.not_lt.mp hle)
  have hcount : leU32? content (REGION_TABLE + 8) = some count :=
    ((readField_refines hc _ (by decide) _).ok_iff _).mp hcount
  have hbat := regions_bat hc hle hfound
  split at h
  case h_2 => cases h
  case h_1 b m hb hm =>
    cases h
    simp only [batRegion, Option.bind_eq_bind, Option.bind_eq_some_iff, hcount, Option.pure_def] at hr
    obtain ⟨_, hn, i, hi, _, hf, _, _, hr⟩ := hr
    cases hn
    cases hr
    rw [hb, hi, Option.bind_some, hf] at hbat
    exact Option.some.inj hbat

-- The BAT that an opened disk looks its entries up in begins where the region table says.
theorem open_batOffset (hc : inner.Conforming content) (h : VhdxSource.open inner = .ok s)
    {fileOffset : UInt64} {length : UInt32} (hr : batRegion content = some (fileOffset, length)) :
    s.batOffset = fileOffset := by
  obtain ⟨_, _, ht, _⟩ := (open_opened h).regions
  exact regionTable_bat hc ht hr

end

end VhdxSource

namespace Disk

-- The entry lies inside the table that the image declares.
inductive Declared (content : Bytes) : Disk → Lookup → Prop
  | l1 {s : Qcow2Source} {i} : i < s.l1Size.toNat → Declared content (.qcow2 s) ⟨.l1, i⟩
  | l2 {s : Qcow2Source} {i} : i < s.clusterSize / 8 → Declared content (.qcow2 s) ⟨.l2, i⟩
  | grainDirectory {s : VmdkSource} {i} :
    i < (s.virtualSize + (s.grainBytes * s.gtesPerGt.toNat - 1)) / (s.grainBytes * s.gtesPerGt.toNat) →
    Declared content (.vmdk s) ⟨.grainDirectory, i⟩
  | grainTable {s : VmdkSource} {i} : i < s.gtesPerGt.toNat → Declared content (.vmdk s) ⟨.grainTable, i⟩
  | bat {s : VhdxSource} {i fileOffset length} : VhdxSource.batRegion content = some (fileOffset, length) →
    fileOffset.toNat ≤ s.batOffset.toNat + i * 8 →
    s.batOffset.toNat + i * 8 + 8 ≤ fileOffset.toNat + length.toNat → Declared content (.vhdx s) ⟨.bat, i⟩

-- Every entry that a read within the virtual size consults is one that the image declares.
def LooksUpInside (d : Disk) (content : Bytes) : Prop :=
  ∀ [OverflowChecks] offset len, offset ≤ d.virtualSize →
    ∀ w ∈ (d.readLogged offset len).log, Declared content d w

-- The region table declares a BAT that holds an entry for every block of the virtual size, and one
-- for the bitmap behind each full run of blocks.
def BatCovers (content : Bytes) : Disk → Prop
  | qcow2 _ | vmdk _ => True
  | vhdx s           => 0 < s.virtualSize.toNat → ∃ fileOffset length,
    VhdxSource.batRegion content = some (fileOffset, length) ∧
      let last := (s.virtualSize.toNat - 1) / s.blockSize
      (last + last / s.chunkRatio + 1) * 8 ≤ length.toNat

section

variable [OverflowChecks] {src : Source} {content : Bytes} {offset len : ℕ} {w : Lookup}

theorem qcow2_declared {s : Qcow2Source} (h : w ∈ ((qcow2 s).readLogged offset len).log) :
    Declared content (qcow2 s) w := by
  have ⟨x, _, _, hw⟩ := mem_log_readSpans s.clusterSize_pos s.virtualSize.toNat_lt h
  obtain ⟨table, i⟩ := w
  rcases s.mem_log_locate hw with ⟨rfl, hi⟩ | ⟨rfl, hi⟩
  · exact .l1 hi
  · exact .l2 (s.l2Entries_eq ▸ hi)

theorem vmdk_declared {s : VmdkSource} (h : w ∈ ((vmdk s).readLogged offset len).log) :
    Declared content (vmdk s) w := by
  have hg := s.grainBytes_pos
  have ⟨x, _, hx, hw⟩ := mem_log_readSpans (by omega) s.virtualSize_lt h
  obtain ⟨table, i⟩ := w
  rcases s.mem_log_locate hw with ⟨rfl, rfl⟩ | ⟨rfl, hi⟩
  · refine .grainDirectory ?_
    have hp : 0 < s.grainBytes * s.gtesPerGt.toNat := Nat.mul_pos (by omega) s.gtesPerGt_pos
    rw [Nat.div_div_eq_div_mul, Nat.lt_div_iff_mul_lt hp]
    have := Nat.div_mul_le_self x (s.grainBytes * s.gtesPerGt.toNat)
    omega
  · exact .grainTable hi

omit [OverflowChecks] in
theorem div_blockSize_lt (s : VhdxSource) {x : ℕ} (hx : x < s.virtualSize.toNat) :
    x / s.blockSize < 2 ^ 44 := by
  have hv := s.virtualSize.toNat_lt
  have := Nat.div_le_div_left (a := x) s.blockSize_mem.left (by decide)
  omega

theorem vhdx_looksUpInside_iff (hc : src.Conforming content) {s : VhdxSource}
    (h : VhdxSource.open src = .ok s) : (vhdx s).LooksUpInside content ↔ (vhdx s).BatCovers content := by
  have hb : 0 < s.blockSize := by have := s.blockSize_mem; omega
  have hv := s.virtualSize.toNat_lt
  have hstart : ∀ {fileOffset length}, VhdxSource.batRegion content = some (fileOffset, length) →
      s.batOffset = fileOffset := VhdxSource.open_batOffset hc h
  constructor
  case mp =>
    intro hin h₀
    have hx : s.virtualSize.toNat - 1 < s.virtualSize.toNat := by omega
    have hw := (s.mem_log_locate (div_blockSize_lt s hx)).mpr rfl
    have hd := hin (s.virtualSize.toNat - 1) 1 (Nat.sub_le _ _) _ (mem_log_readSpans_one hb hv hx hw)
    cases hd with
    | bat hr _ hle =>
      refine ⟨_, _, hr, ?_⟩
      rw [hstart hr] at hle
      dsimp only
      omega
  case mpr =>
    intro hcov _ offset len _ w hw
    have ⟨x, _, hx, hw⟩ := mem_log_readSpans hb hv hw
    have ⟨fileOffset, length, hr, hle⟩ := hcov (by omega)
    have hblock : x / s.blockSize ≤ (s.virtualSize.toNat - 1) / s.blockSize := Nat.div_le_div_right (by omega)
    have hrun := Nat.div_le_div_right (c := s.chunkRatio) hblock
    rw [(s.mem_log_locate (div_blockSize_lt s hx)).mp hw]
    dsimp only at hle
    refine .bat hr ?_ ?_ <;> rw [hstart hr] <;> omega

-- The tables of a QCOW2 image and of a VMDK image bound every lookup. The BAT of a VHDX image bounds
-- them only as far as the declared length goes, which the reader never looks at.
theorem looksUpInside_iff (hc : src.Conforming content) {d : Disk} (hd : d.Opened src) :
    d.LooksUpInside content ↔ d.BatCovers content := by
  cases hd with
  | vhdx h  => exact vhdx_looksUpInside_iff hc h
  | qcow2 _ => exact ⟨fun _ => trivial, fun _ _ _ _ _ _ hw => qcow2_declared hw⟩
  | vmdk _  => exact ⟨fun _ => trivial, fun _ _ _ _ _ _ hw => vmdk_declared hw⟩

end

end Disk

namespace VhdxSource

-- An image of two pieces with zeros between them. The second piece is the region table.
def apart (front regions : Bytes) : Bytes :=
  front ++ (Bytes.zeros (REGION_TABLE - front.length) ++ regions)

-- The container of such an image, which answers a read with what it has left of one piece.
def apartSource (front regions : Bytes) : Source where
  size     := REGION_TABLE + regions.length
  identity := { path := "", format := .raw }
  readAt offset len :=
    if REGION_TABLE + regions.length < offset then
      .err <| .outOfRange offset (REGION_TABLE + regions.length)
    else if offset < front.length then
      .ok <| subslice front offset len
    else if offset < REGION_TABLE then
      .ok <| Bytes.zeros (min len (REGION_TABLE - offset))
    else
      .ok <| subslice regions (offset - REGION_TABLE) len

section

variable {front regions : Bytes} (h : front.length ≤ REGION_TABLE)

include h

theorem length_apart : (apart front regions).length = REGION_TABLE + regions.length := by
  simp only [apart, List.length_append, Bytes.length_zeros]
  omega

theorem apartSource_conforming (hr : regions.length < 2 ^ 32) :
    (apartSource front regions).Conforming (apart front regions) where
  size_eq := (length_apart h).symm
  size_lt := by rw [length_apart h, REGION_TABLE]; omega
  outOfRange len ho := by
    rw [length_apart h] at ho ⊢
    exact if_pos ho
  inRange := by
    intro offset len ho
    have hl : (apart front regions).length = REGION_TABLE + regions.length := length_apart h
    rw [hl] at ho
    simp only [apartSource, if_neg (show ¬REGION_TABLE + regions.length < offset by omega), hl]
    by_cases h₁ : offset < front.length
    case pos =>
      refine ⟨min len (front.length - offset), ?_, by omega, by omega⟩
      rw [if_pos h₁, apart, subslice_append_left (by omega), subslice_min]
    case neg =>
      have hz : (Bytes.zeros (REGION_TABLE - front.length)).length = REGION_TABLE - front.length :=
        Bytes.length_zeros
      rw [if_neg h₁, apart]
      simp only [subslice_append_skip (Nat.le_of_not_lt h₁)]
      by_cases h₂ : offset < REGION_TABLE
      case pos =>
        refine ⟨min len (REGION_TABLE - offset), ?_, by omega, by omega⟩
        rw [if_pos h₂, subslice_append_left (by omega)]
        simp only [Bytes.zeros, subslice, List.drop_replicate, List.take_replicate]
        congr 2
        omega
      case neg =>
        have hat : offset - front.length - (REGION_TABLE - front.length) = offset - REGION_TABLE := by omega
        refine ⟨min len (regions.length - (offset - REGION_TABLE)), ?_, by omega, by omega⟩
        rw [if_neg h₂, subslice_append_skip (by omega), hz, hat, subslice_min]

end

-- A dynamic disk of two blocks of 1 MiB whose region table declares a BAT of one entry at byte 16. The
-- eight bytes behind that entry are not part of any region.
def shortBat : Bytes :=
  [0x76, 0x68, 0x64, 0x78, 0x66, 0x69, 0x6c, 0x65] ++ Bytes.zeros 16 ++ Bytes.toLE 8 6 ++ Bytes.zeros 32 ++
    [0x6d, 0x65, 0x74, 0x61, 0x64, 0x61, 0x74, 0x61] ++ Bytes.zeros 2 ++ Bytes.toLE 2 3 ++ Bytes.zeros 20 ++
    FILE_PARAMETERS ++ Bytes.toLE 4 128 ++ Bytes.zeros 12 ++
    VIRTUAL_DISK_SIZE ++ Bytes.toLE 4 136 ++ Bytes.zeros 12 ++
    LOGICAL_SECTOR_SIZE ++ Bytes.toLE 4 144 ++ Bytes.zeros 12 ++
    Bytes.toLE 4 (2 ^ 20) ++ Bytes.toLE 4 0 ++ Bytes.toLE 8 (2 ^ 21) ++ Bytes.toLE 4 512

def shortBatRegions : Bytes :=
  [0x72, 0x65, 0x67, 0x69] ++ Bytes.zeros 4 ++ Bytes.toLE 4 2 ++ Bytes.zeros 4 ++
    BAT_REGION ++ Bytes.toLE 8 16 ++ Bytes.toLE 4 8 ++ Bytes.toLE 4 1 ++
    METADATA_REGION ++ Bytes.toLE 8 64 ++ Bytes.toLE 4 148 ++ Bytes.toLE 4 1

theorem shortBat_conforming : (apartSource shortBat shortBatRegions).Conforming (apart shortBat shortBatRegions) :=
  apartSource_conforming (by decide +kernel) (by decide +kernel)

section

attribute [local instance] OverflowChecks.on

theorem batRegion_shortBat : batRegion (apart shortBat shortBatRegions) = some (16, 8) :=
  batRegion_of_first shortBat_conforming (by decide +kernel) (by decide +kernel)
    ⟨METADATA_REGION, by decide +kernel, by decide⟩ (by decide +kernel) (by decide +kernel)

-- The read of the second block takes the eight bytes behind the BAT for the block's entry, which sends
-- it to the first byte of the container.
theorem shortBat_looksUpOutside :
    (apartSource shortBat shortBatRegions).Conforming (apart shortBat shortBatRegions) ∧
    ∃ s, VhdxSource.open (apartSource shortBat shortBatRegions) = .ok s ∧
      ⟨.bat, 1⟩ ∈ ((Disk.vhdx s).readLogged (2 ^ 20) 1).log ∧
      ¬Disk.Declared (apart shortBat shortBatRegions) (.vhdx s) ⟨.bat, 1⟩ ∧
      (Disk.vhdx s).readAt (2 ^ 20) 1 = .ok [0x76] ∧
      ¬(Disk.vhdx s).LooksUpInside (apart shortBat shortBatRegions) := by
  refine ⟨shortBat_conforming, ?_⟩
  have ho : (VhdxSource.open (apartSource shortBat shortBatRegions) >>= fun s =>
      .ok (s.batOffset, s.blockSize, s.chunkRatio, s.virtualSize)) = .ok (16, 2 ^ 20, 4096, 2 ^ 21) := by
    decide +kernel
  have hr : (VhdxSource.open (apartSource shortBat shortBatRegions) >>= fun s => s.readAt (2 ^ 20) 1) =
      .ok [0x76] := by
    decide +kernel
  obtain ⟨s, hs, hf⟩ := Exec.bind_eq_ok.mp ho
  obtain ⟨hbat, hblock, hratio, hv⟩ : s.batOffset = 16 ∧ s.blockSize = 2 ^ 20 ∧ s.chunkRatio = 4096 ∧
      s.virtualSize = 2 ^ 21 := by simpa using hf
  rw [hs, Exec.ok_bind] at hr
  have hlog : ⟨.bat, 1⟩ ∈ ((Disk.vhdx s).readLogged (2 ^ 20) 1).log := by
    refine mem_log_readSpans_one (by omega) s.virtualSize.toNat_lt (by rw [hv]; decide) ?_
    rw [s.mem_log_locate (by rw [hblock]; decide), hblock, hratio]
    rfl
  have hout : ¬Disk.Declared (apart shortBat shortBatRegions) (.vhdx s) ⟨.bat, 1⟩ := by
    intro hd
    cases hd with
    | bat hreg _ hle =>
      cases batRegion_shortBat.symm.trans hreg
      rw [hbat] at hle
      exact absurd hle (by decide)
  have hle : 2 ^ 20 ≤ (Disk.vhdx s).virtualSize := by
    rw [Disk.virtualSize, hv]
    decide
  exact ⟨s, hs, hlog, hout, hr, fun hin => hout (hin _ _ hle _ hlog)⟩

theorem looksUpInside_iff_shortBat :
    ∃ d : Disk, d.Opened (apartSource shortBat shortBatRegions) ∧
      (d.LooksUpInside (apart shortBat shortBatRegions) ↔ d.BatCovers (apart shortBat shortBatRegions)) := by
  have ho : (VhdxSource.open (apartSource shortBat shortBatRegions) >>= fun _ => .ok ()) = .ok () := by
    decide +kernel
  have ⟨s, hs, _⟩ := Exec.bind_eq_ok.mp ho
  exact ⟨_, .vhdx hs, Disk.looksUpInside_iff shortBat_conforming (.vhdx hs)⟩

end

end VhdxSource
end Latent
