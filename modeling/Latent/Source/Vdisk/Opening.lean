import Latent.Rust.Failure
import Latent.Source.Raw
import Latent.Source.Vdisk.Flat

open Rust

namespace Latent

-- What the readers of the image formats can fail with: no error but those blames another file, and none
-- is about the descriptor.
def SourceError.Reading (path : String) : SourceError → Prop
  | outOfRange .. | shortRead ..                    => True
  | malformed p _ _ | unsupported p _ _ | io p _    => p = path
  | unrecognized _ | notReadOnly _                  => False

-- A source of which no read fails in another way.
def Source.FailsReading (s : Source) (path : String) : Prop :=
  s.identity.path = path ∧ ∀ offset len, (s.readAt offset len).FailsWith (SourceError.Reading path)

theorem RawSource.failsReading (path : String) (file : File) (mapped : Bool) :
    (RawSource.open path file mapped).toSource.FailsReading path := by
  refine ⟨rfl, fun offset len => ?_⟩
  simp only [RawSource.toSource, RawSource.readAt]
  split
  case isTrue  => exact .err trivial
  case isFalse =>
    split
    case isTrue  => exact .ok _
    case isFalse =>
      split
      · rw [slice]
        split <;> [exact .ok _; exact .panic]
      · exact .mapErr fun _ => rfl
      · exact .ok _

namespace Source.FailsReading

variable [OverflowChecks] {s : Source} {path : String} (h : s.FailsReading path)

include h

theorem readExactAt (offset len : ℕ) : (s.readExactAt offset len).FailsWith (SourceError.Reading path) := by
  have hg : ∀ fuel offset rest,
      (Source.readExactAt.go s len fuel offset rest).FailsWith (SourceError.Reading path) := by
    intro fuel
    induction fuel with
    | zero =>
      rintro offset (_ | rest)
      · exact .ok _
      · exact .panic
    | succ fuel hi =>
      rintro offset (_ | rest)
      · exact .ok _
      · refine (h.2 offset (rest + 1)).bind fun bytes _ => ?_
        split
        case isTrue  => exact .err trivial
        case isFalse =>
          split
          case isTrue  => exact .panic
          case isFalse =>
            refine (U64.add_failsWith _ _).bind fun _ _ => ?_
            exact (hi _ _).bind fun _ _ => .ok _
  exact hg _ _ _

theorem readField {α : Type} (decode : Bytes → α) (width offset : ℕ) :
    (Vdisk.readField decode width s offset).FailsWith (SourceError.Reading path) :=
  (h.readExactAt offset width).bind fun _ _ => .ok _

theorem qcow2 : (Qcow2Source.open s).FailsWith (SourceError.Reading path) := by
  have hp := h.1
  simp only [Qcow2Source.open]
  refine (h.readExactAt _ _).bind fun _ _ => Exec.FailsWith.bind (.errIf hp) fun _ _ => ?_
  iterate 4 refine (h.readField _ _ _).bind fun _ _ => Exec.FailsWith.bind (.errIf hp) fun _ _ => ?_
  refine (h.readField _ _ _).bind fun _ _ => ?_
  split
  case isFalse => exact .err hp
  case isTrue  =>
    iterate 3 refine (h.readField _ _ _).bind fun _ _ => ?_
    exact .ok _

theorem vmdk : (VmdkSource.open s).FailsWith (SourceError.Reading path) := by
  have hp := h.1
  simp only [VmdkSource.open]
  refine (h.readExactAt _ _).bind fun _ _ => Exec.FailsWith.bind (.errIf hp) fun _ _ => ?_
  refine (h.readField _ _ _).bind fun _ _ => Exec.FailsWith.bind (.errIf hp) fun _ _ => ?_
  iterate 6 refine (h.readField _ _ _).bind fun _ _ => ?_
  split
  case isFalse => exact .err hp
  case isTrue  =>
    split
    case isFalse => exact .err hp
    case isTrue  =>
      split
      case isFalse => exact .err hp
      case isTrue  =>
        refine Exec.FailsWith.bind ?_ fun _ _ => .ok _
        rw [VmdkSource.rejectIfHasParent]
        split
        case isTrue  => exact .ok ()
        case isFalse => exact (h.2 _ _).bind fun _ _ => .errIf hp

theorem vhdx : (VhdxSource.open s).FailsWith (SourceError.Reading path) := by
  have hp := h.1
  have hr : (VhdxSource.regionTable s path).FailsWith (SourceError.Reading path) := by
    have he : ∀ found i, (VhdxSource.regionEntry s found i).FailsWith (SourceError.Reading path) := by
      intro found i
      simp only [VhdxSource.regionEntry]
      refine (U64.add_failsWith _ _).bind fun _ _ => (U64.mul_failsWith _ _).bind fun _ _ => ?_
      refine (U64.add_failsWith _ _).bind fun _ _ => (h.readExactAt _ _).bind fun _ _ => ?_
      exact (U64.add_failsWith _ _).bind fun _ _ => (h.readField _ _ _).bind fun _ _ => .ok _
    simp only [VhdxSource.regionTable]
    refine (h.readExactAt _ _).bind fun _ _ => Exec.FailsWith.bind (.errIf rfl) fun _ _ => ?_
    refine (U64.add_failsWith _ _).bind fun _ _ => (h.readField _ _ _).bind fun _ _ => ?_
    refine Exec.FailsWith.bind (.errIf rfl) fun _ _ => (Exec.FailsWith.foldlM he).bind fun _ _ => ?_
    split
    · exact .ok _
    · exact .err rfl
  have hm : ∀ region, (VhdxSource.Metadata.read s region path).FailsWith (SourceError.Reading path) := by
    intro region
    have he : ∀ found i, (VhdxSource.metadataEntry s region found i).FailsWith (SourceError.Reading path) := by
      intro found i
      simp only [VhdxSource.metadataEntry]
      refine (U64.add_failsWith _ _).bind fun _ _ => (U64.mul_failsWith _ _).bind fun _ _ => ?_
      refine (U64.add_failsWith _ _).bind fun _ _ => (h.readExactAt _ _).bind fun _ _ => ?_
      refine (U64.add_failsWith _ _).bind fun _ _ => (h.readField _ _ _).bind fun _ _ => ?_
      refine (U64.add_failsWith _ _).bind fun _ _ => ?_
      split
      case isTrue =>
        refine (h.readField _ _ _).bind fun _ _ => (U64.add_failsWith _ _).bind fun _ _ => ?_
        exact (h.readField _ _ _).bind fun _ _ => .ok _
      case isFalse =>
        split
        case isTrue  => exact (h.readField _ _ _).bind fun _ _ => .ok _
        case isFalse =>
          split
          case isTrue  => exact (h.readField _ _ _).bind fun _ _ => .ok _
          case isFalse => exact .ok _
    simp only [VhdxSource.Metadata.read]
    refine (h.readExactAt _ _).bind fun _ _ => Exec.FailsWith.bind (.errIf rfl) fun _ _ => ?_
    refine (U64.add_failsWith _ _).bind fun _ _ => (h.readField _ _ _).bind fun _ _ => ?_
    refine Exec.FailsWith.bind (.errIf rfl) fun _ _ => (Exec.FailsWith.foldlM he).bind fun _ _ => ?_
    refine Exec.FailsWith.bind (.okOr rfl) fun _ _ => Exec.FailsWith.bind (.okOr rfl) fun _ _ => ?_
    exact Exec.FailsWith.bind (.okOr rfl) fun _ _ => .ok _
  simp only [VhdxSource.open, hp]
  refine (h.readExactAt _ _).bind fun _ _ => Exec.FailsWith.bind (.errIf rfl) fun _ _ => ?_
  refine hr.bind fun _ _ => (hm _).bind fun _ _ => Exec.FailsWith.bind (.errIf rfl) fun _ _ => ?_
  split
  case isFalse => exact .err rfl
  case isTrue  =>
    exact (U64.mul_failsWith _ _).bind fun _ _ => (U64.div_failsWith _ _).bind fun _ _ => .ok _

end Source.FailsReading

section

variable [OverflowChecks] {inner : Source}

theorem Qcow2Source.identity_of_open {s : Qcow2Source} (h : Qcow2Source.open inner = .ok s) :
    s.identity = { path := inner.identity.path, format := .qcow2 } := by
  simp only [Qcow2Source.open, Exec.bind_eq_ok] at h
  obtain ⟨_, _, _, _, _, _, _, _, _, _, _, _, _, _, _, _, _, _, _, _, bits, _, h⟩ := h
  split at h
  case isFalse => cases h
  case isTrue  =>
    simp only [Exec.bind_eq_ok] at h
    obtain ⟨_, _, _, _, _, _, h⟩ := h
    cases h
    rfl

theorem VmdkSource.identity_of_open {s : VmdkSource} (h : VmdkSource.open inner = .ok s) :
    s.identity = { path := inner.identity.path, format := .vmdk } := by
  simp only [VmdkSource.open, Exec.bind_eq_ok] at h
  obtain ⟨_, _, _, _, _, _, _, _, _, _, _, _, _, _, _, _, _, _, _, _, h⟩ := h
  split at h
  case isFalse => cases h
  case isTrue  =>
    split at h
    case isFalse => cases h
    case isTrue  =>
      split at h
      case isFalse => cases h
      case isTrue  =>
        simp only [Exec.bind_eq_ok] at h
        obtain ⟨_, _, h⟩ := h
        cases h
        rfl

theorem VhdxSource.identity_of_open {s : VhdxSource} (h : VhdxSource.open inner = .ok s) :
    s.identity = { path := inner.identity.path, format := .vhdx } := by
  simp only [VhdxSource.open, Exec.bind_eq_ok] at h
  obtain ⟨_, _, _, _, ⟨bat, metadata⟩, _, info, _, _, _, h⟩ := h
  split at h
  case isFalse => cases h
  case isTrue  =>
    simp only [Exec.bind_eq_ok] at h
    obtain ⟨_, _, _, _, h⟩ := h
    cases h
    rfl

def Disk.format : Disk → Format
  | qcow2 _ => .qcow2
  | vmdk _  => .vmdk
  | vhdx _  => .vhdx

-- A disk goes by the path of its container.
theorem Disk.Opened.identity_eq {d : Disk} (h : d.Opened inner) :
    d.identity = { path := inner.identity.path, format := d.format } := by
  cases h with
  | qcow2 h => exact Qcow2Source.identity_of_open h
  | vmdk h  => exact VmdkSource.identity_of_open h
  | vhdx h  => exact VhdxSource.identity_of_open h

end

end Latent
