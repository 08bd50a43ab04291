import Latent.Source.Ewf
import Latent.Source.Vdisk.Flat
import Latent.Source.Window

open Rust

namespace Latent

-- The sources that can be put on top of each other over evidence files, and what each of them is a
-- source of. Files are the ones whose reads do not fail, and disks the ones all of whose bytes their
-- tables map.
inductive Mounted [OverflowChecks] : Source → Bytes → Prop
  | file {path : String} {file : File} {mapped : Bool} : file.Readable →
    Mounted (RawSource.open path file mapped).toSource file.bytes
  | ewf {s : EwfSource} {lib : Libewf} {content : Bytes} : s.Serves lib content → content.length ≤ 2 ^ 63 →
    Mounted (s.toSource lib) content
  | disk {inner : Source} {content flat : Bytes} {d : Disk} : Mounted inner content → d.Opened inner →
    d.flat content = some flat → Mounted d.toSource flat
  | window {inner : Source} {content : Bytes} {offset : ℕ} {len : Option ℕ} {w : Window} : Mounted inner content →
    Window.range inner offset len = .ok w → Mounted w.toSource (subslice content w.offset w.len)

namespace Mounted

variable [OverflowChecks] {s : Source} {content : Bytes}

-- However the sources are nested, the topmost one is read like a file of its content.
theorem conforming (h : Mounted s content) : s.Conforming content := by
  induction h with
  | file h                    => exact RawSource.open_conforming h
  | ewf h hl                  => exact EwfSource.conforming h hl
  | disk _ hd hf hc           => exact Disk.conforming (hd.inner_eq ▸ hc) hf
  | @window _ _ o _ w _ hw hc =>
    have ho := Window.range_eq_ok_iff.mp ⟨w, hw⟩
    obtain ⟨w', hw', hi, _⟩ := Window.range_ok _ ho
    cases hw.symm.trans hw'
    exact Window.conforming (hi ▸ hc)

end Mounted

namespace Source

variable [OverflowChecks]

-- Two sources that exact reads cannot tell from each other, be it by what they return or by how they fail.
structure Agrees (s t : Source) : Prop where
  size_eq     : s.size = t.size
  readExactAt : ∀ offset len, s.readExactAt offset len = t.readExactAt offset len

theorem readExactAt_nothing (s : Source) (offset : ℕ) : s.readExactAt offset 0 = .ok [] :=
  rfl

theorem Conforming.agrees {s t : Source} {content : Bytes} (hs : s.Conforming content)
    (ht : t.Conforming content) : s.Agrees t where
  size_eq := hs.size_eq.trans ht.size_eq.symm
  readExactAt offset len := by
    by_cases h₀ : len = 0
    case pos => rw [h₀, readExactAt_nothing, readExactAt_nothing]
    case neg =>
      by_cases hf : offset + len ≤ content.length
      case pos => rw [hs.readExactAt_ok hf, ht.readExactAt_ok hf]
      case neg =>
        by_cases ho : offset ≤ content.length
        case pos => rw [hs.readExactAt_shortRead ho (by omega), ht.readExactAt_shortRead ho (by omega)]
        case neg =>
          rw [hs.readExactAt_outOfRange (by omega) (by omega), ht.readExactAt_outOfRange (by omega) (by omega)]

end Source

namespace Vdisk

variable [OverflowChecks] {s t : Source} {α : Type}

theorem readField_congr (h : s.Agrees t) (decode : Bytes → α) (width : ℕ) :
    readField decode width s = readField decode width t := by
  funext offset
  rw [readField, readField, h.readExactAt]

theorem readSpans_congr (h : s.Agrees t) : readSpans s = readSpans t := by
  have hf : fillSpan s = fillSpan t := by
    funext hostAt within take host
    cases host with
    | none      => rfl
    | some host => simp only [fillSpan, h.readExactAt]
  have hg : readSpans.go s = readSpans.go t := by
    funext unit locate hostAt offset n fuel done
    induction fuel generalizing done with
    | zero => rfl
    | succ fuel hi => simp only [readSpans.go, hf, hi]
  funext virtualSize unit locate hostAt offset len
  simp only [readSpans, hg]

end Vdisk

namespace Disk

-- The same disk over another container.
def withInner (inner : Source) : Disk → Disk
  | qcow2 s => .qcow2 { s with inner }
  | vmdk s  => .vmdk { s with inner }
  | vhdx s  => .vhdx { s with inner }

variable [OverflowChecks] {s t : Source}

theorem readAt_withInner (h : s.Agrees t) (d : Disk) : (d.withInner s).readAt = (d.withInner t).readAt := by
  cases d with
  | qcow2 q =>
    simp only [withInner, readAt, Qcow2Source.readAt, Vdisk.readSpans_congr h]
    congr 1
    funext cluster
    simp only [Qcow2Source.locate, Vdisk.beU64, Vdisk.readField_congr h]
  | vmdk v =>
    simp only [withInner, readAt, VmdkSource.readAt, Vdisk.readSpans_congr h]
    congr 1
    funext grain
    simp only [VmdkSource.locate, Vdisk.leU32, Vdisk.readField_congr h]
  | vhdx v =>
    simp only [withInner, readAt, VhdxSource.readAt, Vdisk.readSpans_congr h]
    congr 1
    funext block
    simp only [VhdxSource.locate, Vdisk.leU64, Vdisk.readField_congr h]

end Disk

section

variable [OverflowChecks] {s t : Source} (h : s.Agrees t) (hp : s.identity.path = t.identity.path)

include h hp

-- Opening a QCOW2 or a VHDX image looks at it by exact reads only, so it makes the same of two containers
-- that agree.
theorem Qcow2Source.open_congr : Qcow2Source.open t = (do
    let q ← Qcow2Source.open s
    .ok { q with inner := t }) := by
  simp only [Qcow2Source.open, bind_assoc, Vdisk.beU32, Vdisk.beU64, ← Vdisk.readField_congr h, ← h.readExactAt,
    ← hp]
  iterate 11 refine congrArg _ (funext fun _ => ?_)
  split
  case isTrue  => simp only [bind_assoc, Exec.ok_bind]
  case isFalse => rfl

theorem VhdxSource.open_congr : VhdxSource.open t = (do
    let v ← VhdxSource.open s
    .ok { v with inner := t }) := by
  have hr : VhdxSource.regionTable s = VhdxSource.regionTable t := by
    funext path
    have he : VhdxSource.regionEntry s = VhdxSource.regionEntry t := by
      funext found i
      simp only [VhdxSource.regionEntry, Vdisk.leU64, Vdisk.readField_congr h, h.readExactAt]
    simp only [VhdxSource.regionTable, Vdisk.leU32, Vdisk.readField_congr h, h.readExactAt, he]
  have hm : VhdxSource.Metadata.read s = VhdxSource.Metadata.read t := by
    funext region path
    have he : VhdxSource.metadataEntry s = VhdxSource.metadataEntry t := by
      funext region found i
      simp only [VhdxSource.metadataEntry, Vdisk.leU32, Vdisk.leU64, Vdisk.readField_congr h, h.readExactAt]
    simp only [VhdxSource.Metadata.read, Vdisk.leU16, Vdisk.readField_congr h, h.readExactAt, he]
  simp only [VhdxSource.open, bind_assoc, ← hr, ← hm, ← h.readExactAt, ← hp]
  iterate 5 refine congrArg _ (funext fun _ => ?_)
  split
  case isTrue  => simp only [bind_assoc, Exec.ok_bind]
  case isFalse => rfl

end

end Latent
