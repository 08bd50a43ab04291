import Latent.Carve.Independence
import Latent.Source.Opened
import Latent.Source.Vdisk.Qcow2Image
import Latent.Source.Vdisk.VhdxImage
import Latent.Source.Vdisk.VmdkImage

open Rust

namespace Latent

-- A file whose first read is not cut short.
structure Host.Holds (host : Host) (path : String) (fd : ℕ) (file : File) : Prop
    extends host.Serves path fd file where
  readable : file.Readable
  first    : host.mmap fd = true ∨ ∀ len ≤ 8, file.pread 0 len = .ok (file.bytes.take len)

-- The files that a content can be converted to, by format. A raw file is the content itself, which does
-- not look like one of the other formats.
inductive Converted (flat : Bytes) : Format → Bytes → Prop
  | raw : Format.ofMagic (flat.take 8) = .raw → Converted flat .raw flat
  | qcow2 (i : Qcow2Image) : i.disk.flat = flat → i.Fits → Converted flat .qcow2 i.write
  | vmdk (i : VmdkImage) : i.disk.flat = flat → i.Fits → Converted flat .vmdk i.write
  | vhdx (i : VhdxImage) : i.disk.flat = flat → i.Fits → Converted flat .vhdx i.write

theorem openPath_of_serves {host : Host} {path : String} {fd : ℕ} {file : File} (h : host.Serves path fd file) :
    (RawSource.openPath host path).exec = .ok (RawSource.open path file (host.mmap fd)) := by
  obtain ⟨flags, hf, hw⟩ := h.readOnly
  rw [exec_openPath, exec_openReadonly, h.descriptor]
  simp only [io, Exec.ok_bind, hf]
  rw [if_neg (not_not.mpr hw), Exec.ok_bind, h.fstat]
  rfl

theorem readAt_first {host : Host} {path : String} {fd : ℕ} {file : File} (h : host.Holds path fd file) :
    (RawSource.open path file (host.mmap fd)).readAt 0 8 = .ok (file.bytes.take 8) := by
  rcases h.first with hm | hp
  · obtain ⟨n, _, _, hn, hr⟩ := readAt_magic path h.readable (host.mmap fd)
    rw [hr, hn hm]
  · cases hm : host.mmap fd with
    | true =>
      obtain ⟨n, _, _, hn, hr⟩ := readAt_magic path h.readable true
      rw [hr, hn rfl]
    | false =>
      have hs : (RawSource.open path file false).size = file.bytes.length := rfl
      rw [RawSource.readAt, if_neg (Nat.not_lt_zero _)]
      by_cases hn : min 8 ((RawSource.open path file false).size - 0) = 0
      case pos =>
        rw [if_pos hn, List.eq_nil_of_length_eq_zero (show file.bytes.length = 0 by omega), List.take_nil]
      case neg =>
        have hb : (RawSource.open path file false).backing = .positioned file := if_neg (by omega)
        simp only [if_neg hn, hb, hp _ (Nat.min_le_left ..)]
        rw [hs, Nat.sub_zero, ← List.take_take, List.take_length]
        rfl

namespace Converted

variable {flat bytes : Bytes} {format : Format}

-- A piece at the start of a container is what the container starts with.
theorem prefix_container {n : ℕ} {pieces : List (ℕ × Bytes)} {piece : Bytes} (h : Laid n pieces)
    (hp : (0, piece) ∈ pieces) (hl : piece.length ≤ 8) : piece <+: (Vdisk.container n pieces).take 8 := by
  have hs := Vdisk.subslice_container h hp
  rw [subslice, List.drop_zero] at hs
  exact List.prefix_take_iff.mpr ⟨hs ▸ List.take_prefix .., hl⟩

-- Every file that a content is converted to looks like its format.
theorem ofMagic (h : Converted flat format bytes) : Format.ofMagic (bytes.take 8) = format := by
  have hne : ∀ {magic other : Bytes}, magic <+: bytes.take 8 → ¬(magic <+: other) → ¬(other <+: magic) →
      ¬(other <+: bytes.take 8) := by
    intro magic other hm h₁ h₂ ho
    rcases List.prefix_or_prefix_of_prefix hm ho with h | h <;> contradiction
  cases h with
  | raw h => exact h
  | qcow2 i _ _ =>
    have hp : (0, Qcow2Source.MAGIC) ∈ i.pieces := by simp [Qcow2Image.pieces]
    have hm : Qcow2Source.MAGIC <+: i.write.take 8 := prefix_container i.laid hp (by decide)
    rw [Format.ofMagic, if_neg (hne hm (by decide) (by decide)), if_pos hm]
  | vmdk i _ _ =>
    have hp : (0, VmdkSource.MAGIC) ∈ i.pieces := by simp [VmdkImage.pieces]
    have hm : VmdkSource.MAGIC <+: i.write.take 8 := prefix_container i.laid hp (by decide)
    rw [Format.ofMagic, if_neg (hne hm (by decide) (by decide)), if_neg (hne hm (by decide) (by decide)), if_pos hm]
  | vhdx i _ _ =>
    have hp : (0, VhdxImage.FILE_ID) ∈ i.pieces := by simp [VhdxImage.pieces]
    have hm : VHDX_MAGIC <+: i.write.take 8 := prefix_container i.laid hp (by decide)
    rw [Format.ofMagic, if_neg (hne hm (by decide) (by decide)), if_neg (hne hm (by decide) (by decide)),
      if_neg (hne hm (by decide) (by decide)), if_pos hm]

end Converted

section

variable [OverflowChecks] {lib : Option Libewf} {path : String}

-- Which of the readers opens a file is told by its first bytes alone.
theorem fromMagic_eq {raw : RawSource} {magic : Bytes} : fromMagic lib path raw magic =
    match Format.ofMagic magic with
    | .ewf   => (openEwf lib path).exec
    | .qcow2 => Qcow2Source.open raw.toSource >>= fun s => .ok (.disk (.qcow2 s))
    | .vmdk  => VmdkSource.open raw.toSource >>= fun s => .ok (.disk (.vmdk s))
    | .vhdx  => VhdxSource.open raw.toSource >>= fun s => .ok (.disk (.vhdx s))
    | .raw   => .ok (.raw raw) := by
  rw [fromMagic, Format.ofMagic]
  split
  case isTrue  => rfl
  case isFalse =>
    split
    case isTrue  => rfl
    case isFalse =>
      split
      case isTrue  => rfl
      case isFalse =>
        split
        case isTrue  => rfl
        case isFalse => rfl

theorem fromMagic_disk {raw : RawSource} {magic : Bytes} {d : Disk} (hd : d.Opened raw.toSource)
    (hf : Format.ofMagic magic = d.format) : fromMagic lib path raw magic = .ok (.disk d) := by
  rw [fromMagic_eq, hf]
  cases hd with
  | qcow2 ho => simp only [Disk.format, ho, Exec.ok_bind]
  | vmdk ho  => simp only [Disk.format, ho, Exec.ok_bind]
  | vhdx ho  => simp only [Disk.format, ho, Exec.ok_bind]

-- The disk that a container is opened as.
theorem Converted.disk {flat bytes : Bytes} {format : Format} {inner : Source} (h : Converted flat format bytes)
    (hr : format ≠ .raw) (hc : inner.Conforming bytes) :
    ∃ d : Disk, d.Opened inner ∧ d.format = format ∧ d.flat bytes = some flat := by
  cases h with
  | raw => exact absurd rfl hr
  | qcow2 i hflat hf =>
    obtain ⟨s, ho, _, h⟩ := Qcow2Image.opens hc hf
    exact ⟨.qcow2 s, .qcow2 ho, rfl, hflat ▸ h⟩
  | vmdk i hflat hf =>
    obtain ⟨s, ho, _, h⟩ := VmdkImage.opens hc hf
    exact ⟨.vmdk s, .vmdk ho, rfl, hflat ▸ h⟩
  | vhdx i hflat hf =>
    obtain ⟨s, ho, _, h⟩ := VhdxImage.opens hc hf
    exact ⟨.vhdx s, .vhdx ho, rfl, hflat ▸ h⟩

theorem Converted.opens (lib : Option Libewf) {host : Host} {fd : ℕ} {file : File} {flat : Bytes} {format : Format}
    (hh : host.Holds path fd file) (h : Converted flat format file.bytes) :
    ∃ image, (Latent.open host lib path).exec = .ok image ∧ image.format = format ∧ Mounted image.toSource flat := by
  have hfile : Mounted (RawSource.open path file (host.mmap fd)).toSource file.bytes := .file hh.readable
  have hm := h.ofMagic
  have hopen : (Latent.open host lib path).exec =
      fromMagic lib path (RawSource.open path file (host.mmap fd)) (file.bytes.take 8) := by
    rw [exec_open, openPath_of_serves hh.toServes, Exec.ok_bind, readAt_first hh, Exec.ok_bind]
  rw [hopen]
  by_cases hr : format = .raw
  case pos =>
    subst hr
    cases h
    exact ⟨.raw _, by rw [fromMagic_eq, hm], rfl, hfile⟩
  case neg =>
    obtain ⟨d, hd, hf, hflat⟩ := h.disk hr hfile.conforming
    exact ⟨.disk d, fromMagic_disk hd (hm.trans hf.symm), (congrArg Identity.format hd.identity_eq).trans hf,
      .disk hfile hd hflat⟩

-- Whatever format a content has been converted to, what is opened is of that format, and nothing that
-- works on it can tell it from the content itself.
theorem open_converted (lib : Option Libewf) {host : Host} {fd : ℕ} {file : File} {flat : Bytes} {format : Format}
    (hh : host.Holds path fd file) (h : Converted flat format file.bytes) :
    ∃ image, (Latent.open host lib path).exec = .ok image ∧ image.format = format ∧
      image.toSource.identity.path = path ∧ Mounted image.toSource flat ∧
      ∀ t, Mounted t flat → image.toSource.Interchangeable t flat.length := by
  have ⟨image, ho, hf, hm⟩ := h.opens lib hh
  exact ⟨image, ho, hf, path_of_open ho, hm, fun t ht => hm.conforming.interchangeable ht.conforming⟩

end

section

attribute [local instance] OverflowChecks.on

theorem hostOf_holds {bytes : Bytes} (h : bytes.length < 2 ^ 64) : (hostOf bytes).Holds "a" 3
    { bytes, pread := fun offset len => .ok (subslice bytes offset len) } where
  descriptor := rfl
  readOnly   := ⟨OFlags.RDONLY, rfl, by decide⟩
  fstat      := rfl
  readable   := {
    size_lt := h
    pread   := fun _ len h₀ _ => ⟨len, h₀, Nat.le_refl _, rfl⟩
  }
  first      := .inr fun _ _ => rfl

theorem open_converted_holed : ∃ image,
    (Latent.open (hostOf Qcow2Image.holed.write) none "a").exec = .ok image ∧ image.format = .qcow2 ∧
      Mounted image.toSource (Bytes.zeros 512 ++ [7]) := by
  have ⟨image, ho, hf, _, hm, _⟩ := open_converted none (hostOf_holds Qcow2Image.length_holed)
    (.qcow2 Qcow2Image.holed rfl Qcow2Image.holed_fits)
  exact ⟨image, ho, hf, hm⟩

end

end Latent
