import Latent.Source.Lifetimes
import Latent.Source.Stack
import Latent.Source.Vdisk.Opening

open Rust

namespace Latent

namespace OFlags

def RDONLY : UInt32 :=
  0

def WRONLY : UInt32 :=
  1

def RDWR : UInt32 :=
  2

def CREATE : UInt32 :=
  0o100

def TRUNC : UInt32 :=
  0o1000

def NOATIME : UInt32 :=
  0o1000000

def CLOEXEC : UInt32 :=
  0o2000000

end OFlags

open OFlags Logged

-- How the operating system answers: the descriptor that a path is opened with, the flags that it has got,
-- the file that is behind it, and if that can be mapped.
structure Host where
  openat : (path : String) → (flags : UInt32) → Except String ℕ
  getfl  : (fd : ℕ) → Except String UInt32
  fstat  : (fd : ℕ) → Except String File
  mmap   : (fd : ℕ) → Bool

inductive Syscall
  | openat (path : String) (flags : UInt32)
  | getfl (fd : ℕ)
  | fstat (fd : ℕ)
  | mmap (fd : ℕ)
  | libewf (call : Libewf.Call)
  deriving DecidableEq, Repr

-- The descriptor that a path is opened with, be it at the first or the second attempt.
def Host.descriptor (host : Host) (path : String) : Except String ℕ :=
  match host.openat path (RDONLY ||| CLOEXEC ||| NOATIME) with
  | .ok fd   => .ok fd
  | .error _ => host.openat path (RDONLY ||| CLOEXEC)

-- A file is opened in a way that cannot write to it, create it or cut it off, and what is asked after that is
-- asked of its descriptor.
def Syscall.ReadOnly (host : Host) (path : String) : Syscall → Prop
  | openat p flags => p = path ∧ flags &&& (WRONLY ||| RDWR) = 0 ∧ flags &&& (CREATE ||| TRUNC) = 0
  | getfl fd       => host.descriptor path = .ok fd
  | fstat fd       => host.descriptor path = .ok fd
  | mmap fd        => host.descriptor path = .ok fd
  | libewf call    => EwfSource.ReadOnly path call

def io {α : Type} (path : String) : Except String α → Exec SourceError α
  | .ok a    => .ok a
  | .error e => .err (.io path e)

def openReadonly (host : Host) (path : String) : Logged Syscall SourceError ℕ := do
  let base := RDONLY ||| CLOEXEC
  note (.openat path (base ||| NOATIME))
  let fd ← match host.openat path (base ||| NOATIME) with
    | .ok fd   => pure fd
    | .error _ => noting (.openat path base) (io path (host.openat path base))
  let flags ← noting (.getfl fd) (io path (host.getfl fd))
  if flags &&& (WRONLY ||| RDWR) ≠ 0 then
    quiet <| .err <| .notReadOnly path
  else
    return fd

def openFile (host : Host) (path : String) : Logged Syscall SourceError (ℕ × File) := do
  let fd ← openReadonly host path
  let file ← noting (.fstat fd) (io path (host.fstat fd))
  return (fd, file)

-- An empty file is not mapped.
def RawSource.openPath (host : Host) (path : String) : Logged Syscall SourceError RawSource := do
  let (fd, file) ← openFile host path
  if file.bytes.length = 0 then
    return RawSource.open path file false
  else
    note (.mmap fd)
    return RawSource.open path file (host.mmap fd)

-- What is behind `Box<dyn Source>`.
inductive Image
  | raw (s : RawSource)
  | ewf (s : EwfSource) (lib : Libewf)
  | disk (d : Disk)

namespace Image

def format : Image → Format
  | raw s   => s.identity.format
  | ewf s _ => s.identity.format
  | disk d  => d.identity.format

def toSource [OverflowChecks] : Image → Source
  | raw s     => s.toSource
  | ewf s lib => s.toSource lib
  | disk d    => d.toSource

end Image

-- The library is there or not, depending on the build.
def openEwf (lib : Option Libewf) (path : String) : Logged Syscall SourceError Image :=
  match lib with
  | none     => quiet <| .err <| .unsupported path "ewf" "this build has no libewf; E01/EWF support is off"
  | some lib => do
    let s ← mapLog .libewf (EwfSource.open lib path)
    return .ewf s lib

-- "vhdxfile"
def VHDX_MAGIC : Bytes :=
  [0x76, 0x68, 0x64, 0x78, 0x66, 0x69, 0x6c, 0x65]

def «open» [OverflowChecks] (host : Host) (lib : Option Libewf) (path : String) :
    Logged Syscall SourceError Image := do
  let raw ← RawSource.openPath host path
  let magic ← quiet (raw.readAt 0 8)
  if EwfSource.MAGIC <+: magic then
    openEwf lib path
  else if Qcow2Source.MAGIC <+: magic then
    return .disk (.qcow2 (← quiet (Qcow2Source.open raw.toSource)))
  else if VmdkSource.MAGIC <+: magic then
    return .disk (.vmdk (← quiet (VmdkSource.open raw.toSource)))
  else if VHDX_MAGIC <+: magic then
    return .disk (.vhdx (← quiet (VhdxSource.open raw.toSource)))
  else
    return .raw raw

-- The format that the first bytes of a file stand for.
def Format.ofMagic (magic : Bytes) : Format :=
  if EwfSource.MAGIC <+: magic then .ewf
  else if Qcow2Source.MAGIC <+: magic then .qcow2
  else if VmdkSource.MAGIC <+: magic then .vmdk
  else if VHDX_MAGIC <+: magic then .vhdx
  else .raw

theorem exec_openReadonly (host : Host) (path : String) : (openReadonly host path).exec = (do
    let fd ← io path (host.descriptor path)
    let flags ← io path (host.getfl fd)
    if flags &&& (WRONLY ||| RDWR) ≠ 0 then .err (.notReadOnly path) else .ok fd) := by
  have hflags : ∀ fd, (noting (.getfl fd) (io path (host.getfl fd)) >>= fun flags =>
      if flags &&& (WRONLY ||| RDWR) ≠ 0 then quiet (.err (.notReadOnly path)) else pure fd :
      Logged Syscall SourceError ℕ).exec = (do
        let flags ← io path (host.getfl fd)
        if flags &&& (WRONLY ||| RDWR) ≠ 0 then .err (.notReadOnly path) else .ok fd) := by
    intro fd
    rw [exec_bind, exec_noting]
    congr 1
    funext flags
    split <;> rfl
  rw [openReadonly, Host.descriptor]
  simp only [exec_note_bind]
  cases host.openat path (RDONLY ||| CLOEXEC ||| NOATIME) with
  | ok fd   => exact hflags fd
  | error _ =>
    cases host.openat path (RDONLY ||| CLOEXEC) with
    | ok fd   => exact hflags fd
    | error e => rfl

theorem descriptor_of_openReadonly {host : Host} {path : String} {fd : ℕ}
    (h : (openReadonly host path).exec = .ok fd) : host.descriptor path = .ok fd := by
  rw [exec_openReadonly] at h
  obtain ⟨fd', hd, h⟩ := Exec.bind_eq_ok.mp h
  obtain ⟨flags, _, h⟩ := Exec.bind_eq_ok.mp h
  split at h
  case isTrue  => cases h
  case isFalse =>
    cases h
    cases hp : host.descriptor path with
    | ok _    => rw [hp] at hd; cases hd; rfl
    | error _ => rw [hp] at hd; cases hd

-- Nothing is done on the way that could change the file.
theorem openReadonly_logs (host : Host) (path : String) :
    (openReadonly host path).Logs (Syscall.ReadOnly host path) := by
  have ht : ∀ fd, host.descriptor path = .ok fd → (noting (.getfl fd) (io path (host.getfl fd)) >>= fun flags =>
      if flags &&& (WRONLY ||| RDWR) ≠ 0 then quiet (.err (.notReadOnly path)) else pure fd :
      Logged Syscall SourceError ℕ).Logs (Syscall.ReadOnly host path) := by
    refine fun fd hd => .bind (.noting hd) fun flags _ => ?_
    split
    case isTrue  => exact .quiet _
    case isFalse => exact .pure _
  rw [openReadonly]
  refine .bind (.note ⟨rfl, by decide, by decide⟩) fun _ _ => ?_
  cases ho : host.openat path (RDONLY ||| CLOEXEC ||| NOATIME) with
  | ok fd   => exact ht fd (by rw [Host.descriptor, ho])
  | error _ =>
    refine .bind (.noting ⟨rfl, by decide, by decide⟩) fun fd hfd => ht fd ?_
    rw [Host.descriptor, ho]
    cases hs : host.openat path (RDONLY ||| CLOEXEC) with
    | ok _    => rw [exec_noting, hs] at hfd; cases hfd; rfl
    | error _ => rw [exec_noting, hs] at hfd; cases hfd

theorem openPath_logs (host : Host) (path : String) :
    (RawSource.openPath host path).Logs (Syscall.ReadOnly host path) := by
  refine .bind (.bind (openReadonly_logs host path) fun fd hfd => ?_) ?_
  · exact .bind (.noting (descriptor_of_openReadonly hfd)) fun _ _ => .pure _
  · rintro ⟨fd, file⟩ hfile
    dsimp only
    split
    case isTrue  => exact .pure _
    case isFalse =>
      obtain ⟨fd', hfd, h⟩ := Exec.bind_eq_ok.mp hfile
      obtain ⟨_, _, h⟩ := Exec.bind_eq_ok.mp h
      cases h
      exact .bind (.note (descriptor_of_openReadonly hfd)) fun _ _ => .pure _

theorem openEwf_logs (host : Host) (lib : Option Libewf) (path : String) :
    (openEwf lib path).Logs (Syscall.ReadOnly host path) := by
  cases lib with
  | none     => exact .quiet _
  | some lib => exact .bind (.mapLog (EwfSource.readOnly_attempt (EwfSource.open_attempt lib path))) fun _ _ => .pure _

theorem open_logs [OverflowChecks] (host : Host) (lib : Option Libewf) (path : String) :
    (Latent.open host lib path).Logs (Syscall.ReadOnly host path) := by
  refine .bind (openPath_logs host path) fun raw _ => .bind (.quiet _) fun magic _ => ?_
  repeat' split
  · exact openEwf_logs host lib path
  all_goals first | exact .pure _ | exact .bind (.quiet _) fun _ _ => .pure _

theorem exec_openPath (host : Host) (path : String) : (RawSource.openPath host path).exec = (do
    let fd ← (openReadonly host path).exec
    let file ← io path (host.fstat fd)
    .ok (RawSource.open path file (host.mmap fd))) := by
  simp only [RawSource.openPath, openFile, exec_bind, exec_noting, exec_pure, bind_assoc, Exec.ok_bind]
  congr 1
  funext fd
  congr 1
  funext file
  split
  case isTrue h  => simp only [exec_pure, RawSource.open, if_pos h]
  case isFalse h => rfl

-- The file behind the descriptor, once it is known that nothing can be written through it.
structure Host.Serves (host : Host) (path : String) (fd : ℕ) (file : File) : Prop where
  descriptor : host.descriptor path = .ok fd
  readOnly   : ∃ flags, host.getfl fd = .ok flags ∧ flags &&& (WRONLY ||| RDWR) = 0
  fstat      : host.fstat fd = .ok file

theorem openPath_eq_ok {host : Host} {path : String} {raw : RawSource}
    (h : (RawSource.openPath host path).exec = .ok raw) :
    ∃ fd file, host.Serves path fd file ∧ raw = RawSource.open path file (host.mmap fd) := by
  rw [exec_openPath, exec_openReadonly] at h
  cases hd : host.descriptor path with
  | error e => rw [hd] at h; cases h
  | ok fd =>
    cases hf : host.getfl fd with
    | error e => rw [hd] at h; simp only [io, Exec.ok_bind, hf] at h; cases h
    | ok flags =>
      simp only [hd, hf, io, Exec.ok_bind] at h
      split at h
      case isTrue => cases h
      case isFalse hw =>
        cases hs : host.fstat fd with
        | error e => simp only [hs, Exec.ok_bind] at h; cases h
        | ok file =>
          simp only [hs, Exec.ok_bind, Exec.ok.injEq] at h
          exact ⟨fd, file, ⟨hd, ⟨flags, hf, of_not_not hw⟩, hs⟩, h.symm⟩

theorem openPath_eq_err {host : Host} {path : String} {e : SourceError}
    (h : (RawSource.openPath host path).exec = .err e) :
    (∃ detail, e = .io path detail) ∨ e = .notReadOnly path ∧ ∃ fd flags, host.descriptor path = .ok fd ∧
      host.getfl fd = .ok flags ∧ flags &&& (WRONLY ||| RDWR) ≠ 0 := by
  rw [exec_openPath, exec_openReadonly] at h
  cases hd : host.descriptor path with
  | error e =>
    rw [hd] at h
    cases h
    exact .inl ⟨e, rfl⟩
  | ok fd =>
    cases hf : host.getfl fd with
    | error e =>
      simp only [hd, io, Exec.ok_bind, hf] at h
      cases h
      exact .inl ⟨e, rfl⟩
    | ok flags =>
      simp only [hd, hf, io, Exec.ok_bind] at h
      split at h
      case isTrue hw =>
        cases h
        exact .inr ⟨rfl, fd, flags, rfl, hf, hw⟩
      case isFalse =>
        cases hs : host.fstat fd with
        | ok file => simp only [hs, Exec.ok_bind] at h; cases h
        | error e =>
          simp only [hs, Exec.ok_bind] at h
          cases h
          exact .inl ⟨e, rfl⟩

theorem openPath_notReadOnly {host : Host} {path : String} {fd : ℕ} {flags : UInt32}
    (hd : host.descriptor path = .ok fd) (hf : host.getfl fd = .ok flags)
    (hw : flags &&& (WRONLY ||| RDWR) ≠ 0) : (RawSource.openPath host path).exec = .err (.notReadOnly path) := by
  rw [exec_openPath, exec_openReadonly, hd]
  simp only [io, Exec.ok_bind, hf]
  rw [if_pos hw]
  rfl

end Latent
