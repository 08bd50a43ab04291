import Latent.Source.Open

open Rust

namespace Latent

open OFlags Logged

-- What an image shows of the file that it has been opened from.
def Image.Shows (file : File) : Image → Bytes → Prop
  | raw _, content     => content = file.bytes
  | disk d, content    => d.flat file.bytes = some content
  | ewf s lib, content => s.Serves lib content ∧ content.length ≤ 2 ^ 63

section

variable {host : Host} {lib : Option Libewf} {path : String}

-- The first bytes of a file are there in full where it is mapped. Where it is not, some of them may be
-- missing.
theorem readAt_magic (path : String) {file : File} (h : file.Readable) (mapped : Bool) :
    ∃ n ≤ 8, (0 < file.bytes.length → 0 < n) ∧ (mapped = true → n = 8) ∧
      (RawSource.open path file mapped).readAt 0 8 = .ok (file.bytes.take n) := by
  cases mapped with
  | false =>
    have hc : (RawSource.open path file false).toSource.Conforming file.bytes := RawSource.open_conforming h
    have ⟨n, hr, hn, hp⟩ := hc.inRange 8 (Nat.zero_le _)
    exact ⟨n, by omega, fun h₀ => hp (by omega), nofun, hr⟩
  | true =>
    refine ⟨8, Nat.le_refl 8, fun _ => by decide, fun _ => rfl, ?_⟩
    simp only [RawSource.readAt, RawSource.open, Nat.not_lt_zero, if_false, Nat.sub_zero, if_true, Nat.zero_add]
    by_cases h₀ : file.bytes.length = 0
    case pos => simp [List.length_eq_zero_iff.mp h₀]
    case neg =>
      rw [if_neg (by omega), if_neg h₀]
      dsimp only
      rw [slice_eq (Nat.zero_le _) (by omega), subslice, List.drop_zero, Nat.sub_zero, ← List.take_take,
        List.take_length]

variable [OverflowChecks]

-- What comes after the file has been opened, and what it depends on.
def fromMagic (lib : Option Libewf) (path : String) (raw : RawSource) (magic : Bytes) : Exec SourceError Image :=
  if EwfSource.MAGIC <+: magic then
    (openEwf lib path).exec
  else if Qcow2Source.MAGIC <+: magic then do
    let s ← Qcow2Source.open raw.toSource
    .ok (.disk (.qcow2 s))
  else if VmdkSource.MAGIC <+: magic then do
    let s ← VmdkSource.open raw.toSource
    .ok (.disk (.vmdk s))
  else if VHDX_MAGIC <+: magic then do
    let s ← VhdxSource.open raw.toSource
    .ok (.disk (.vhdx s))
  else
    .ok (.raw raw)

theorem exec_open : (Latent.open host lib path).exec = (do
    let raw ← (RawSource.openPath host path).exec
    let magic ← raw.readAt 0 8
    fromMagic lib path raw magic) := by
  rw [Latent.open, exec_bind]
  congr 1
  funext raw
  rw [exec_bind]
  congr 1
  funext magic
  rw [fromMagic]
  repeat' split
  all_goals rfl

theorem fromMagic_failsWith {raw : RawSource} (hr : raw.toSource.FailsReading path) (magic : Bytes) :
    (fromMagic lib path raw magic).FailsWith (SourceError.Reading path) := by
  rw [fromMagic]
  split
  case isTrue =>
    cases lib with
    | none     => exact .err rfl
    | some lib =>
      refine Exec.FailsWith.bind ?_ fun _ _ => .ok _
      rcases EwfSource.exec_attempt (EwfSource.open_attempt lib path) with ⟨_, h⟩ | ⟨_, h, _⟩
      · rw [exec_mapLog, h]
        exact .err rfl
      · rw [exec_mapLog, h]
        exact .ok _
  case isFalse =>
    repeat' split
    · exact hr.qcow2.bind fun _ _ => .ok _
    · exact hr.vmdk.bind fun _ _ => .ok _
    · exact hr.vhdx.bind fun _ _ => .ok _
    · exact .ok _

-- An image, with the format that its first bytes call for.
structure Opened (lib : Option Libewf) (path : String) (raw : RawSource) (magic : Bytes) (image : Image) : Prop where
  format   : image.format = Format.ofMagic magic
  identity : image.toSource.identity.path = path
  opened   : match image with
    | .raw s   => s = raw
    | .ewf s l => lib = some l ∧ (EwfSource.open l path).exec = .ok s
    | .disk d  => d.Opened raw.toSource

theorem fromMagic_eq_ok {raw : RawSource} {magic : Bytes} {image : Image}
    (hr : raw.identity = { path, format := .raw }) (h : fromMagic lib path raw magic = .ok image) :
    Opened lib path raw magic image := by
  have hd : ∀ d : Disk, d.Opened raw.toSource → d.format = Format.ofMagic magic →
      Opened lib path raw magic (.disk d) := by
    intro d hd hf
    have hi := hd.identity_eq
    exact ⟨(congrArg Identity.format hi).trans hf,
      (congrArg Identity.path hi).trans (congrArg Identity.path hr), hd⟩
  rw [fromMagic] at h
  rw [Format.ofMagic] at hd
  split at h
  case isTrue hm =>
    cases lib with
    | none     => cases h
    | some lib =>
      have ⟨s, hs, h⟩ := Exec.bind_eq_ok.mp h
      cases h
      rcases EwfSource.exec_attempt (EwfSource.open_attempt lib path) with ⟨_, he⟩ | ⟨s', he, hi⟩
      · cases he.symm.trans hs
      · cases he.symm.trans hs
        refine ⟨?_, congrArg Identity.path hi, rfl, hs⟩
        rw [Format.ofMagic, if_pos hm]
        exact congrArg Identity.format hi
  case isFalse hm =>
    rw [if_neg hm] at hd
    split at h
    case isTrue hq =>
      have ⟨s, hs, h⟩ := Exec.bind_eq_ok.mp h
      cases h
      exact hd _ (.qcow2 hs) (if_pos hq).symm
    case isFalse hq =>
      rw [if_neg hq] at hd
      split at h
      case isTrue hk =>
        have ⟨s, hs, h⟩ := Exec.bind_eq_ok.mp h
        cases h
        exact hd _ (.vmdk hs) (if_pos hk).symm
      case isFalse hk =>
        rw [if_neg hk] at hd
        split at h
        case isTrue hv =>
          have ⟨s, hs, h⟩ := Exec.bind_eq_ok.mp h
          cases h
          exact hd _ (.vhdx hs) (if_pos hv).symm
        case isFalse hv =>
          cases h
          refine ⟨?_, congrArg Identity.path hr, rfl⟩
          rw [Format.ofMagic, if_neg hm, if_neg hq, if_neg hk, if_neg hv]
          exact congrArg Identity.format hr

-- Opening fails with the file itself or with what is in it.
theorem open_eq_err {e : SourceError} (he : (Latent.open host lib path).exec = .err e) :
    (RawSource.openPath host path).exec = .err e ∨ e.Reading path := by
  rw [exec_open] at he
  cases hp : (RawSource.openPath host path).exec with
  | err e' =>
    rw [hp] at he
    cases he
    exact .inl rfl
  | panic =>
    rw [hp] at he
    cases he
  | ok raw =>
    right
    rw [hp, Exec.ok_bind] at he
    obtain ⟨fd, file, _, rfl⟩ := openPath_eq_ok hp
    have hr := RawSource.failsReading path file (host.mmap fd)
    exact (hr.2 0 8).bind (fun magic _ => fromMagic_failsWith hr magic) e he

theorem open_failsWith (host : Host) (lib : Option Libewf) (path : String) :
    (Latent.open host lib path).exec.FailsWith fun e => e = .notReadOnly path ∨ e.Reading path := by
  intro e he
  rcases open_eq_err he with h | h
  · rcases openPath_eq_err h with ⟨_, rfl⟩ | ⟨rfl, _⟩
    · exact .inr rfl
    · exact .inl rfl
  · exact .inr h

theorem open_eq_notReadOnly_iff (host : Host) (lib : Option Libewf) (path : String) :
    (Latent.open host lib path).exec = .err (.notReadOnly path) ↔ ∃ fd flags, host.descriptor path = .ok fd ∧
      host.getfl fd = .ok flags ∧ flags &&& (WRONLY ||| RDWR) ≠ 0 := by
  constructor
  case mp =>
    intro h
    rcases open_eq_err h with h | h
    · rcases openPath_eq_err h with ⟨_, h⟩ | ⟨_, h⟩
      · cases h
      · exact h
    · exact h.elim
  case mpr =>
    rintro ⟨fd, flags, hd, hf, hw⟩
    rw [exec_open, openPath_notReadOnly hd hf hw]
    rfl

-- What is open goes by the path that it was opened with.
theorem path_of_open {image : Image} (h : (Latent.open host lib path).exec = .ok image) :
    image.toSource.identity.path = path := by
  rw [exec_open] at h
  have ⟨raw, hp, h⟩ := Exec.bind_eq_ok.mp h
  have ⟨magic, _, h⟩ := Exec.bind_eq_ok.mp h
  obtain ⟨fd, file, _, rfl⟩ := openPath_eq_ok hp
  exact (fromMagic_eq_ok rfl h).identity

-- Opening evidence, whatever the operating system and the library answer: nothing is asked of them that
-- could change it; a descriptor that can be written through is the one reason for which it is called not
-- read-only; every other failure is about this path; and what comes out is read like the content that
-- the file has by the format its first bytes tell.
theorem open_faithful (host : Host) (lib : Option Libewf) (path : String) :
    (∀ call ∈ (Latent.open host lib path).log, call.ReadOnly host path) ∧
    ((Latent.open host lib path).exec = .err (.notReadOnly path) ↔ ∃ fd flags, host.descriptor path = .ok fd ∧
      host.getfl fd = .ok flags ∧ flags &&& (WRONLY ||| RDWR) ≠ 0) ∧
    (∀ e, (Latent.open host lib path).exec = .err e → e = .notReadOnly path ∨ e.Reading path) ∧
    ∀ image, (Latent.open host lib path).exec = .ok image → image.toSource.identity.path = path ∧
      ∃ fd file, host.Serves path fd file ∧ (file.Readable →
        (∃ n ≤ 8, (0 < file.bytes.length → 0 < n) ∧ (host.mmap fd = true → n = 8) ∧
          image.format = Format.ofMagic (file.bytes.take n)) ∧
        ∀ content, image.Shows file content → Mounted image.toSource content) := by
  refine ⟨open_logs host lib path, open_eq_notReadOnly_iff host lib path, open_failsWith host lib path, ?_⟩
  intro image h
  rw [exec_open] at h
  have ⟨raw, hp, h⟩ := Exec.bind_eq_ok.mp h
  have ⟨magic, hm, h⟩ := Exec.bind_eq_ok.mp h
  obtain ⟨fd, file, hs, rfl⟩ := openPath_eq_ok hp
  have ho := fromMagic_eq_ok rfl h
  refine ⟨ho.identity, fd, file, hs, fun hread => ⟨?_, ?_⟩⟩
  · have ⟨n, hn, h₀, hmap, hr⟩ := readAt_magic path hread (host.mmap fd)
    cases hm.symm.trans hr
    exact ⟨n, hn, h₀, hmap, ho.format⟩
  · intro content hc
    have hopened := ho.opened
    cases image with
    | raw s   =>
      cases hc
      cases hopened
      exact .file hread
    | ewf s l => exact .ewf hc.1 hc.2
    | disk d  => exact .disk (.file hread) hopened hc

end

section

attribute [local instance] OverflowChecks.on

-- A system that grants nobody access without a trace and that cannot map files.
def hostOf (bytes : Bytes) : Host where
  openat _ flags := if flags &&& NOATIME ≠ 0 then .error "Operation not permitted" else .ok 3
  getfl _        := .ok RDONLY
  fstat _        := .ok { bytes, pread := fun offset len => .ok (subslice bytes offset len) }
  mmap _         := false

-- An image of one cluster is opened on it, at the second attempt.
theorem open_faithful_qcow2 : ∃ image,
    (Latent.open (hostOf (Disk.qcow2Image 1024 [7])) none "a").exec = .ok image ∧ image.format = .qcow2 ∧
      ∀ content, image.Shows ⟨Disk.qcow2Image 1024 [7], fun offset len =>
        .ok (subslice (Disk.qcow2Image 1024 [7]) offset len)⟩ content → Mounted image.toSource content := by
  have hf : ((Latent.open (hostOf (Disk.qcow2Image 1024 [7])) none "a").exec >>= fun image => .ok image.format) =
      .ok .qcow2 := by
    decide +kernel
  have ⟨image, ho, hq⟩ := Exec.bind_eq_ok.mp hf
  have ⟨_, fd, file, hs, h⟩ := (open_faithful (hostOf (Disk.qcow2Image 1024 [7])) none "a").2.2.2 image ho
  cases hs.fstat
  have hr : File.Readable ⟨Disk.qcow2Image 1024 [7], fun offset len =>
      .ok (subslice (Disk.qcow2Image 1024 [7]) offset len)⟩ := {
    size_lt := by decide +kernel
    pread   := fun _ len h₀ _ => ⟨len, h₀, Nat.le_refl _, rfl⟩
  }
  exact ⟨image, ho, Exec.ok.inj hq, (h hr).2⟩

end

end Latent
