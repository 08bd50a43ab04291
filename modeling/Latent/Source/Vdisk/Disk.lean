import Latent.Source.Raw
import Latent.Source.Vdisk.Qcow2
import Latent.Source.Vdisk.Vmdk
import Latent.Source.Vdisk.Vhdx

open Rust

namespace Latent

-- A virtual disk of one of the three formats, as `Box<dyn Source>` holds it.
inductive Disk
  | qcow2 (s : Qcow2Source)
  | vmdk (s : VmdkSource)
  | vhdx (s : VhdxSource)

namespace Disk

def virtualSize : Disk → ℕ
  | qcow2 s => s.virtualSize.toNat
  | vmdk s  => s.virtualSize
  | vhdx s  => s.virtualSize.toNat

-- The table walk for one guest byte. It fails where an entry or the host byte lies past the end of
-- the container and where the cluster is compressed.
def walk : Disk → Bytes → ℕ → Option UInt8
  | qcow2 s => s.walk
  | vmdk s  => s.walk
  | vhdx s  => s.walk

-- The sum of host address and position fits. Only a grain can be large enough for it not to: a
-- cluster is at most 2 MiB at an address below 2⁵⁶, and the VHDX reader saturates.
def SumFits (content : Bytes) (offset : ℕ) : Disk → Prop
  | qcow2 _ | vhdx _ => True
  | vmdk s           => s.SumFits content offset

def inner : Disk → Source
  | qcow2 s => s.inner
  | vmdk s  => s.inner
  | vhdx s  => s.inner

section

variable [OverflowChecks]

def readAt : Disk → (offset len : ℕ) → Exec SourceError Bytes
  | qcow2 s => s.readAt
  | vmdk s  => s.readAt
  | vhdx s  => s.readAt

-- The disks that the three `open` functions accept.
inductive Opened (inner : Source) : Disk → Prop
  | qcow2 {s} : Qcow2Source.open inner = .ok s → Opened inner (.qcow2 s)
  | vmdk {s}  : VmdkSource.open inner = .ok s → Opened inner (.vmdk s)
  | vhdx {s}  : VhdxSource.open inner = .ok s → Opened inner (.vhdx s)

variable {src : Source} {content : Bytes} {d : Disk}

theorem Opened.inner_eq (hd : d.Opened src) : d.inner = src := by
  cases hd with
  | qcow2 h => exact (Qcow2Source.open_opened h).inner_eq
  | vmdk h  => exact (VmdkSource.open_opened h).inner_eq
  | vhdx h  => exact (VhdxSource.open_opened h).inner_eq

-- A read depends on what the container holds, not on how the disk was opened.
theorem readAt_refines (hc : d.inner.Conforming content) {offset : ℕ} (len : ℕ)
    (ho : offset ≤ d.virtualSize) (hs : d.SumFits content offset) :
    (d.readAt offset len).Refines
      ((List.range' offset (min len (d.virtualSize - offset))).mapM (d.walk content)) := by
  cases d with
  | qcow2 s => exact Qcow2Source.readAt_refines hc len ho
  | vmdk s  => exact VmdkSource.readAt_refines hc len ho hs
  | vhdx s  => exact VhdxSource.readAt_refines hc len ho

-- A read returns the walk of each of its bytes if they all succeed, and an error if one of them
-- fails.
def ReadsAsWalked (d : Disk) (content : Bytes) (offset len : ℕ) : Prop :=
  let n := min len (d.virtualSize - offset)
  ((∀ i, i < n → d.walk content (offset + i) ≠ none) → ∃ bytes, d.readAt offset len = .ok bytes ∧
    bytes.length = n ∧ ∀ i, i < n → d.walk content (offset + i) = bytes[i]?) ∧
  ((∃ i, i < n ∧ d.walk content (offset + i) = none) → ∃ e, d.readAt offset len = .err e)

theorem reads_as_walked (hd : d.Opened src) (hc : src.Conforming content) {offset : ℕ}
    (len : ℕ) (ho : offset ≤ d.virtualSize) (hs : d.SumFits content offset) :
    d.ReadsAsWalked content offset len := by
  unfold ReadsAsWalked
  intro n
  have hr := readAt_refines (hd.inner_eq ▸ hc) len ho hs
  constructor
  case left =>
    intro h
    have hm : (List.range' offset n).mapM (d.walk content) =
        some ((List.range n).map fun i => (d.walk content (offset + i)).getD 0) := by
      refine mapM_range'_eq_some_iff.mpr ⟨by simp, fun i hi => ?_⟩
      have ⟨b, hb⟩ := Option.ne_none_iff_exists'.mp (h i hi)
      simp [hi, hb]
    exact ⟨_, (hr.ok_iff _).mpr hm, mapM_range'_eq_some_iff.mp hm⟩
  case right =>
    intro ⟨i, hi, h⟩
    rw [mapM_range'_eq_none hi h] at hr
    exact hr

end

-- A version 3 image of one cluster: the L1 table is at 64, the L2 table at 512 and the data at 1024.
def qcow2Image (l2Entry : ℕ) (data : Bytes) : Bytes :=
  [0x51, 0x46, 0x49, 0xfb, 0, 0, 0, 3] ++ List.replicate 12 0 ++ Bytes.toBE 4 9 ++ Bytes.toBE 8 512 ++
    List.replicate 4 0 ++ Bytes.toBE 4 1 ++ Bytes.toBE 8 64 ++ List.replicate 16 0 ++
    Bytes.toBE 8 512 ++ List.replicate 440 0 ++ Bytes.toBE 8 l2Entry ++ List.replicate 504 0 ++ data

section

attribute [local instance] OverflowChecks.on

theorem qcow2Image_opens :
    (Qcow2Source.open (rawSource (qcow2Image 1024 [7])) >>= fun s => s.readAt 0 1) = .ok [7] := by
  decide +kernel

theorem qcow2Image_reads_as_walked :
    ∃ d : Disk, d.Opened (rawSource (qcow2Image 1024 [7])) ∧ d.readAt 0 1 = .ok [7] ∧
      d.ReadsAsWalked (qcow2Image 1024 [7]) 0 1 := by
  have ⟨s, ho, hr⟩ := Exec.bind_eq_ok.mp qcow2Image_opens
  exact ⟨.qcow2 s, .qcow2 ho, hr,
    reads_as_walked (.qcow2 ho) (rawSource_conforming (by decide +kernel)) 1 (Nat.zero_le _) trivial⟩

end

end Disk
end Latent
