import Latent.Core.Trail
import Latent.Source.Integrity
import Latent.Source.Opened

open Rust Logged

namespace Latent

inductive FatalError
  | integrityViolation (detail : String)
  | readOnlyViolation (detail : String)
  | io (source : String)
  | unusableSource (detail : String)
  deriving DecidableEq, Repr

def SourceError.toFatal : SourceError → FatalError
  | .io _ source      => .io source
  | .notReadOnly path => .readOnlyViolation (SourceError.notReadOnly path).display
  | other             => .unusableSource other.display

namespace IntegrityError

def HASH_MISMATCH : UInt8 :=
  20

def SOURCE_CHANGED : UInt8 :=
  21

def READONLY_VIOLATION : UInt8 :=
  22

def exitCode : IntegrityError → UInt8
  | expectedMismatch ..   => HASH_MISMATCH
  | sourceChanged ..      => SOURCE_CHANGED
  | source (.notReadOnly _) => READONLY_VIOLATION
  | source _              => 1

def display : IntegrityError → String
  | expectedMismatch expected computed =>
    s!"source does not match the expected hash (expected {String.ofList expected}, got {String.ofList computed})"
  | sourceChanged opened closed =>
    s!"source changed during processing (open {String.ofList opened}, close {String.ofList closed})"
  | source e => e.display

def toFatal : IntegrityError → FatalError
  | source e => e.toFatal
  | other    => .integrityViolation other.display

-- The classes of the errors are the ones of the exit codes.
theorem toFatal_eq_integrityViolation_iff (e : IntegrityError) :
    (∃ detail, e.toFatal = .integrityViolation detail) ↔ e.exitCode = HASH_MISMATCH ∨ e.exitCode = SOURCE_CHANGED := by
  cases e with
  | expectedMismatch => simp [toFatal, exitCode]
  | sourceChanged    => simp [toFatal, exitCode]
  | source e         => cases e <;> simp [toFatal, SourceError.toFatal, exitCode] <;> decide

theorem toFatal_eq_readOnlyViolation_iff (e : IntegrityError) :
    (∃ detail, e.toFatal = .readOnlyViolation detail) ↔ e.exitCode = READONLY_VIOLATION := by
  cases e with
  | expectedMismatch => simp [toFatal, exitCode, HASH_MISMATCH, READONLY_VIOLATION]
  | sourceChanged    => simp [toFatal, exitCode, SOURCE_CHANGED, READONLY_VIOLATION]
  | source e         => cases e <;> simp [toFatal, SourceError.toFatal, exitCode] <;> decide

end IntegrityError

-- The times at which the lines of a session are made.
structure Times where
  opened   : Option String
  hashed   : Option String
  rehashed : Option String
  closed   : Option String

namespace VerifiedSource

variable [Sha256] [OverflowChecks]

-- The same as `wrap` and `finish`, with the events that they send.
def wrapAudited (source : Source) (expected : Option (List Char)) (fuel : ℕ) (now : Option String) :
    Option (Logged Event IntegrityError VerifiedSource) :=
  (hashSource source fuel).map fun openHash => do
    let openHash ← quiet (openHash.mapErr .source)
    note (Audit.sourceHash .open "sha256" (String.ofList openHash) now)
    match expected with
    | none      => return { source, openHash }
    | some want =>
      if normalized want ≠ openHash then
        quiet <| .err <| .expectedMismatch (normalized want) openHash
      else
        return { source, openHash }

def finishAudited (v : VerifiedSource) (fuel : ℕ) (times : Times) :
    Option (Logged Event IntegrityError (List Char)) :=
  (hashSource v.source fuel).map fun closeHash => do
    let closeHash ← quiet (closeHash.mapErr .source)
    note (Audit.sourceHash .close "sha256" (String.ofList closeHash) times.rehashed)
    note (Audit.sourceClose v.source.identity.path times.closed)
    if closeHash ≠ v.openHash then
      quiet <| .err <| .sourceChanged v.openHash closeHash
    else
      return closeHash

theorem exec_wrapAudited (source : Source) (expected : Option (List Char)) (fuel : ℕ) (now : Option String) :
    (wrapAudited source expected fuel now).map exec = wrap source expected fuel := by
  rw [wrapAudited, wrap, Option.map_map]
  congr 1
  funext openHash
  cases openHash with
  | err e => rfl
  | panic => rfl
  | ok openHash =>
    cases expected with
    | none      => rfl
    | some want =>
      simp only [Function.comp_apply, exec_bind, exec_quiet, Exec.mapErr_ok, Exec.ok_bind]
      split <;> rfl

theorem exec_finishAudited (v : VerifiedSource) (fuel : ℕ) (times : Times) :
    (v.finishAudited fuel times).map exec = v.finish fuel := by
  rw [finishAudited, finish, Option.map_map]
  congr 1
  funext closeHash
  cases closeHash with
  | err e => rfl
  | panic => rfl
  | ok closeHash =>
    simp only [Function.comp_apply, exec_bind, exec_quiet, Exec.mapErr_ok, Exec.ok_bind]
    split <;> rfl

theorem hashSource_cases {src : Source} {fuel : ℕ} {x : Exec SourceError (List Char)}
    (h : hashSource src fuel = some x) :
    (∃ digest, x = .ok digest) ∨ x = .panic ∨ ∃ detail, x = .err (.io src.identity.path detail) := by
  have ⟨y, _, hx⟩ := Option.map_eq_some_iff.mp h
  cases y with
  | ok digest => exact .inl ⟨_, hx.symm⟩
  | panic     => exact .inr (.inl hx.symm)
  | err e     => exact .inr (.inr ⟨_, hx.symm⟩)

-- How hashing a source for the first time comes out, with what is sent.
theorem wrapAudited_cases {source : Source} {expected : Option (List Char)} {fuel : ℕ} {now : Option String}
    {r : Logged Event IntegrityError VerifiedSource} (h : wrapAudited source expected fuel now = some r) :
    r.log = [] ∧ (r.exec = .panic ∨ ∃ detail, r.exec = .err (.source (.io source.identity.path detail))) ∨
    ∃ digest, r.log = [Audit.sourceHash .open "sha256" (String.ofList digest) now] ∧
      ((∃ want ∈ expected, normalized want ≠ digest ∧ r.exec = .err (.expectedMismatch (normalized want) digest)) ∨
        (∀ want ∈ expected, normalized want = digest) ∧ r.exec = .ok { source, openHash := digest }) := by
  have ⟨x, hx, hr⟩ := Option.map_eq_some_iff.mp h
  subst hr
  rcases hashSource_cases hx with ⟨digest, rfl⟩ | rfl | ⟨detail, rfl⟩
  · refine .inr ⟨digest, ?_⟩
    cases expected with
    | none      => exact ⟨rfl, .inr ⟨nofun, rfl⟩⟩
    | some want =>
      by_cases hw : normalized want = digest
      case pos =>
        simp only [log_bind, exec_bind, exec_quiet, log_quiet, Exec.mapErr_ok, Exec.ok_bind]
        simp [hw]
      case neg =>
        simp only [log_bind, exec_bind, exec_quiet, log_quiet, Exec.mapErr_ok, Exec.ok_bind]
        simp [hw]
  · exact .inl ⟨rfl, .inl rfl⟩
  · exact .inl ⟨rfl, .inr ⟨detail, rfl⟩⟩

-- How hashing it again comes out.
theorem finishAudited_cases {v : VerifiedSource} {fuel : ℕ} {times : Times}
    {r : Logged Event IntegrityError (List Char)} (h : v.finishAudited fuel times = some r) :
    r.log = [] ∧ (r.exec = .panic ∨ ∃ detail, r.exec = .err (.source (.io v.source.identity.path detail))) ∨
    ∃ digest, r.log = [Audit.sourceHash .close "sha256" (String.ofList digest) times.rehashed,
        Audit.sourceClose v.source.identity.path times.closed] ∧
      r.exec = if digest ≠ v.openHash then .err (.sourceChanged v.openHash digest) else .ok digest := by
  have ⟨x, hx, hr⟩ := Option.map_eq_some_iff.mp h
  subst hr
  rcases hashSource_cases hx with ⟨digest, rfl⟩ | rfl | ⟨detail, rfl⟩
  · refine .inr ⟨digest, ?_⟩
    by_cases hd : digest = v.openHash
    case pos =>
      simp only [log_bind, exec_bind, exec_quiet, log_quiet, Exec.mapErr_ok, Exec.ok_bind]
      simp [hd]
    case neg =>
      simp only [log_bind, exec_bind, exec_quiet, log_quiet, Exec.mapErr_ok, Exec.ok_bind]
      simp [hd]
  · exact .inl ⟨rfl, .inl rfl⟩
  · exact .inl ⟨rfl, .inr ⟨detail, rfl⟩⟩

def «open» (host : Host) (lib : Option Libewf) (path : String) (expected : Option (List Char)) (fuel : ℕ)
    (times : Times) : Option (Logged Event IntegrityError VerifiedSource) :=
  match (Latent.open host lib path).exec with
  | .err e    => some <| quiet <| .err <| .source e
  | .panic    => some <| quiet .panic
  | .ok image =>
    let source := image.toSource
    (wrapAudited source expected fuel times.hashed).map fun wrapped => do
      note (Audit.sourceOpen path (UInt64.ofNat source.size) times.opened)
      wrapped

end VerifiedSource

-- One source from its opening to the end, with what its reads return when it is hashed again.
structure Session where
  host     : Host
  lib      : Option Libewf
  path     : String
  expected : Option (List Char)
  later    : (offset len : ℕ) → Exec SourceError Bytes
  fuel     : ℕ
  times    : Times

namespace Session

open IntegrityError VerifiedSource

section

variable [Sha256] [OverflowChecks]

def run (s : Session) : Option (Logged Event IntegrityError (List Char)) := do
  let opened ← VerifiedSource.open s.host s.lib s.path s.expected s.fuel s.times
  match opened.exec with
  | .err e => some ⟨.err e, opened.log⟩
  | .panic => some ⟨.panic, opened.log⟩
  | .ok v  =>
    let finished ← finishAudited { v with source := { v.source with readAt := s.later } } s.fuel s.times
    some ⟨finished.exec, opened.log ++ finished.log⟩

end

section

-- The four lines of a session.
def opened (s : Session) (size : UInt64) : Event :=
  Audit.sourceOpen s.path size s.times.opened

def hashed (s : Session) (digest : List Char) : Event :=
  Audit.sourceHash .open "sha256" (String.ofList digest) s.times.hashed

def rehashed (s : Session) (digest : List Char) : Event :=
  Audit.sourceHash .close "sha256" (String.ofList digest) s.times.rehashed

def closed (s : Session) : Event :=
  Audit.sourceClose s.path s.times.closed

def Accepts (s : Session) (digest : List Char) : Prop :=
  ∀ want ∈ s.expected, (Text.trim want).map Text.toAsciiLowercase = digest

-- Hashing a source can only fail by its reads.
def Unreadable (s : Session) {α : Type} (x : Exec IntegrityError α) : Prop :=
  x = .panic ∨ ∃ detail, x = .err (.source (.io s.path detail))

variable {s : Session}

theorem hashed_inj {d d' : List Char} : s.hashed d = s.hashed d' ↔ d = d' := by
  simp [hashed, Audit.sourceHash, String.ofList_inj]

theorem rehashed_inj {d d' : List Char} : s.rehashed d = s.rehashed d' ↔ d = d' := by
  simp [rehashed, Audit.sourceHash, String.ofList_inj]

def ExitsWith (x : Exec IntegrityError (List Char)) (code : UInt8) : Prop :=
  ∃ e, x = .err e ∧ e.exitCode = code

theorem not_exitsWith_ok {digest : List Char} {code : UInt8} : ¬ExitsWith (.ok digest) code := by
  rintro ⟨e, h, _⟩
  cases h

theorem exitsWith_err {e : IntegrityError} {code : UInt8} : ExitsWith (.err e) code ↔ e.exitCode = code := by
  simp [ExitsWith]

-- What cannot be read has the exit code of all other errors.
theorem not_exitsWith_of_unreadable {x : Exec IntegrityError (List Char)} {code : UInt8} (h : s.Unreadable x)
    (hc : code ≠ 1) : ¬ExitsWith x code := by
  rintro ⟨e, he, hcode⟩
  rcases h with rfl | ⟨detail, rfl⟩
  · cases he
  · cases he
    exact hc hcode.symm

variable [OverflowChecks]

-- How a session can end, and the lines that are then there.
inductive Trail (s : Session) : Exec IntegrityError (List Char) → List Event → Prop
  | panicked : Trail s .panic []
  | notOpened {e} : (Latent.open s.host s.lib s.path).exec = .err e → Trail s (.err (.source e)) []
  | notHashed {x size} : s.Unreadable x → Trail s x [s.opened size]
  | mismatch {size want digest} : want ∈ s.expected → normalized want ≠ digest →
    Trail s (.err (.expectedMismatch (normalized want) digest)) [s.opened size, s.hashed digest]
  | notRehashed {x size digest} : s.Accepts digest → s.Unreadable x →
    Trail s x [s.opened size, s.hashed digest]
  | changed {size digest now} : s.Accepts digest → now ≠ digest → Trail s (.err (.sourceChanged digest now))
    [s.opened size, s.hashed digest, s.rehashed now, s.closed]
  | finished {size digest} : s.Accepts digest → Trail s (.ok digest)
    [s.opened size, s.hashed digest, s.rehashed digest, s.closed]

theorem exitCode_of_open {e : SourceError} (h : (Latent.open s.host s.lib s.path).exec = .err e) :
    (IntegrityError.source e).exitCode = READONLY_VIOLATION ∧ e = .notReadOnly s.path ∨
      (IntegrityError.source e).exitCode = 1 ∧ e ≠ .notReadOnly s.path := by
  rcases open_failsWith _ _ _ e h with rfl | hr
  · exact .inl ⟨rfl, rfl⟩
  · cases e with
    | unrecognized path => exact hr.elim
    | notReadOnly path  => exact hr.elim
    | _ => exact .inr ⟨rfl, nofun⟩

variable {x : Exec IntegrityError (List Char)} {lines : List Event}

namespace Trail

theorem finished_iff (h : s.Trail x lines) (digest : List Char) : x = .ok digest ↔
    s.Accepts digest ∧ ∃ size, lines = [s.opened size, s.hashed digest, s.rehashed digest, s.closed] := by
  cases h with
  | panicked         => simp
  | notOpened        => simp
  | mismatch         => simp
  | notHashed hx     => rcases hx with rfl | ⟨_, rfl⟩ <;> simp
  | notRehashed _ hx => rcases hx with rfl | ⟨_, rfl⟩ <;> simp
  | changed _ hn     =>
    simp only [reduceCtorEq, List.cons.injEq, hashed_inj, rehashed_inj, and_true, false_iff]
    rintro ⟨_, _, _, rfl, rfl⟩
    exact hn rfl
  | @finished size d ha =>
    simp only [Exec.ok.injEq, List.cons.injEq, hashed_inj, rehashed_inj, and_true]
    constructor
    case mp =>
      rintro rfl
      exact ⟨ha, size, rfl, rfl, rfl⟩
    case mpr =>
      rintro ⟨_, _, _, rfl, _⟩
      rfl

theorem mismatch_iff (h : s.Trail x lines) : ExitsWith x HASH_MISMATCH ↔
    ∃ size digest, ¬s.Accepts digest ∧ lines = [s.opened size, s.hashed digest] := by
  cases h with
  | panicked => simp [ExitsWith]
  | notOpened ho =>
    rcases exitCode_of_open ho with ⟨hc, _⟩ | ⟨hc, _⟩ <;> simp [exitsWith_err, hc, READONLY_VIOLATION, HASH_MISMATCH]
  | notHashed hx => simp [not_exitsWith_of_unreadable hx (show HASH_MISMATCH ≠ 1 by decide)]
  | @mismatch size want digest hw hn =>
    simp only [exitsWith_err, exitCode, true_iff]
    exact ⟨size, digest, fun ha => hn (ha want hw), rfl⟩
  | notRehashed ha hx =>
    simp only [not_exitsWith_of_unreadable hx (show HASH_MISMATCH ≠ 1 by decide), false_iff, List.cons.injEq,
      hashed_inj, and_true]
    rintro ⟨_, _, hn, _, rfl⟩
    exact hn ha
  | changed  => simp [exitsWith_err, exitCode, SOURCE_CHANGED, HASH_MISMATCH]
  | finished => simp [not_exitsWith_ok]

theorem changed_iff (h : s.Trail x lines) : ExitsWith x SOURCE_CHANGED ↔ ∃ size digest now, now ≠ digest ∧
    lines = [s.opened size, s.hashed digest, s.rehashed now, s.closed] := by
  cases h with
  | panicked => simp [ExitsWith]
  | notOpened ho =>
    rcases exitCode_of_open ho with ⟨hc, _⟩ | ⟨hc, _⟩ <;>
      simp [exitsWith_err, hc, READONLY_VIOLATION, SOURCE_CHANGED]
  | notHashed hx => simp [not_exitsWith_of_unreadable hx (show SOURCE_CHANGED ≠ 1 by decide)]
  | mismatch => simp [exitsWith_err, exitCode, SOURCE_CHANGED, HASH_MISMATCH]
  | notRehashed _ hx => simp [not_exitsWith_of_unreadable hx (show SOURCE_CHANGED ≠ 1 by decide)]
  | @changed size digest now _ hn =>
    simp only [exitsWith_err, exitCode, true_iff]
    exact ⟨size, digest, now, hn, rfl⟩
  | finished =>
    simp only [not_exitsWith_ok, false_iff, List.cons.injEq, hashed_inj, rehashed_inj, and_true]
    rintro ⟨_, _, _, hn, _, rfl, rfl⟩
    exact hn rfl

-- Only a source that could not be opened can have been open for writing.
theorem writable (h : s.Trail x lines) (hw : ExitsWith x READONLY_VIOLATION) :
    (Latent.open s.host s.lib s.path).exec = .err (.notReadOnly s.path) := by
  cases h with
  | panicked => simp [ExitsWith] at hw
  | notOpened ho =>
    rcases exitCode_of_open ho with ⟨_, rfl⟩ | ⟨hc, _⟩
    · exact ho
    · simp [exitsWith_err, hc, READONLY_VIOLATION] at hw
  | notHashed hx     => exact absurd hw (not_exitsWith_of_unreadable hx (by decide))
  | mismatch         => simp [exitsWith_err, exitCode, READONLY_VIOLATION, HASH_MISMATCH] at hw
  | notRehashed _ hx => exact absurd hw (not_exitsWith_of_unreadable hx (by decide))
  | changed          => simp [exitsWith_err, exitCode, READONLY_VIOLATION, SOURCE_CHANGED] at hw
  | finished         => exact absurd hw not_exitsWith_ok

theorem target_eq (h : s.Trail x lines) : ∀ event ∈ lines, event.target = AUDIT_TARGET := by
  cases h <;> simp [opened, hashed, rehashed, closed, Audit.sourceOpen, Audit.sourceHash, Audit.sourceClose]

end Trail

variable [Sha256]

-- Whatever the system, the library and the source do, a session that ends takes one of these ways.
theorem run_trail {r : Logged Event IntegrityError (List Char)} (h : s.run = some r) : s.Trail r.exec r.log := by
  have ⟨opened, ho, h⟩ := Option.bind_eq_some_iff.mp h
  rw [VerifiedSource.open] at ho
  cases hopen : (Latent.open s.host s.lib s.path).exec with
  | panic =>
    simp only [hopen, Option.some.injEq] at ho
    subst ho
    cases h
    exact .panicked
  | err e =>
    simp only [hopen, Option.some.injEq] at ho
    subst ho
    cases h
    exact .notOpened hopen
  | ok image =>
    have hpath : image.toSource.identity.path = s.path := path_of_open hopen
    simp only [hopen] at ho
    have ⟨wrapped, hw, ho⟩ := Option.map_eq_some_iff.mp ho
    subst ho
    simp only [exec_note_bind, log_note_bind] at h
    rcases wrapAudited_cases hw with ⟨hl, hx | ⟨detail, hx⟩⟩ | ⟨digest, hl, ⟨want, hm, hn, hx⟩ | ⟨ha, hx⟩⟩
    · rw [hx] at h
      cases h
      rw [hl]
      exact .notHashed (.inl rfl)
    · rw [hx] at h
      cases h
      rw [hl, hpath]
      exact .notHashed (.inr ⟨detail, rfl⟩)
    · rw [hx] at h
      cases h
      rw [hl]
      exact .mismatch hm hn
    · rw [hx] at h
      have ⟨finished, hf, h⟩ := Option.bind_eq_some_iff.mp h
      cases h
      rw [hl]
      rcases finishAudited_cases hf with ⟨hl', hx' | ⟨detail, hx'⟩⟩ | ⟨digest', hl', hx'⟩
      · rw [hl', hx']
        exact .notRehashed ha (.inl rfl)
      · rw [hl', hx', hpath]
        exact .notRehashed ha (.inr ⟨detail, rfl⟩)
      · rw [hl', hx', hpath]
        split
        case isTrue hd  => exact .changed ha hd
        case isFalse hd =>
          cases of_not_not hd
          exact .finished ha

theorem run_of_open_err {e : SourceError} (h : (Latent.open s.host s.lib s.path).exec = .err e) :
    s.run = some ⟨.err (.source e), []⟩ := by
  simp [run, VerifiedSource.open, h]

-- How a session ends can be told from its lines, if it ends well or because of what it has hashed. No
-- line is there where the evidence could have been written to.
structure Attested (s : Session) (x : Exec IntegrityError (List Char)) (lines : List Event) : Prop where
  finished : ∀ digest, x = .ok digest ↔ s.Accepts digest ∧ ∃ size,
    lines = [s.opened size, s.hashed digest, s.rehashed digest, s.closed]
  mismatch : ExitsWith x HASH_MISMATCH ↔ ∃ size digest, ¬s.Accepts digest ∧ lines = [s.opened size, s.hashed digest]
  changed  : ExitsWith x SOURCE_CHANGED ↔ ∃ size digest now, now ≠ digest ∧
    lines = [s.opened size, s.hashed digest, s.rehashed now, s.closed]
  writable : ExitsWith x READONLY_VIOLATION ↔ ∃ fd flags, s.host.descriptor s.path = .ok fd ∧
    s.host.getfl fd = .ok flags ∧ flags &&& (OFlags.WRONLY ||| OFlags.RDWR) ≠ 0

theorem attested {r : Logged Event IntegrityError (List Char)} (h : s.run = some r) : s.Attested r.exec r.log where
  finished := (run_trail h).finished_iff
  mismatch := (run_trail h).mismatch_iff
  changed  := (run_trail h).changed_iff
  writable := by
    rw [← open_eq_notReadOnly_iff s.host s.lib]
    constructor
    case mp  => exact (run_trail h).writable
    case mpr =>
      intro ho
      cases (run_of_open_err ho).symm.trans h
      exact exitsWith_err.mpr rfl

variable {ε : Type} [SerdeJson] {dev : Device ε} {reopen : (content : Bytes) → Reopened ε content}
variable {runs : List (Session × Logged Event IntegrityError (List Char))} {others : List (List Event)}
variable {events : List Event} {log : AuditLog ε} {prior : Bytes} {d : AuditDigest} {fuel : ℕ}

-- Any number of sessions, together with whatever else is logged, in any order: once the log is closed, its
-- file has each session's lines in their order, its digest covers them, and they tell how the session
-- has ended.
theorem custody {outputDir version command : String} {created : Except ε Unit} {start stop : Option String}
    (hb : AuditLog.build dev outputDir created (.ok prior) start version command = .ok log)
    (hr : ∀ p ∈ runs, p.1.run = some p.2) (hi : Interleaving (runs.map (·.2.log) ++ others) events)
    (hd : (AuditLog.close dev reopen fuel stop
      { log with writer := events.foldl (AuditWriter.deliver dev) log.writer }).2 = some (.ok d)) :
    let file := (AuditLog.close dev reopen fuel stop
      { log with writer := events.foldl (AuditWriter.deliver dev) log.writer }).1.file.inner
    let lines := AuditLog.runStart start version command :: auditLines events ++ [AuditLog.runEnd stop]
    file.bytes = prior ++ lines.flatMap (· ++ [0x0A]) ∧ d.sha256 = hexDigest file.bytes ∧
      ∀ p ∈ runs, (p.2.log.map Event.line).Sublist (auditLines events) ∧ p.1.Attested p.2.exec p.2.log := by
  intro file lines
  have ⟨_, _, _, hbytes, hdigest, _⟩ := AuditLog.close_ok (AuditLog.holds_deliver (AuditLog.holds_build hb)) hd
  refine ⟨?_, hdigest, fun p hp => ⟨?_, attested (hr p hp)⟩⟩
  · rw [hbytes]
    simp [lines]
  · have ⟨i, hlt, he⟩ := List.getElem_of_mem hp
    have hs : p.2.log.Sublist events := hi.sublist (i := i) (by simp [List.getElem?_append, hlt, he])
    have ha : p.2.log.filter (fun event => event.target = AUDIT_TARGET) = p.2.log := by
      exact List.filter_eq_self.mpr fun event he => decide_eq_true ((run_trail (hr p hp)).target_eq event he)
    have := (hs.filter fun event => event.target = AUDIT_TARGET).map Event.line
    rwa [ha] at this

end

section

attribute [local instance] Sha256.standard SerdeJson.compact OverflowChecks.on

-- The file "abc", which has lost its last byte when it is read again.
def truncated : Session where
  host     := hostOf [97, 98, 99]
  lib      := none
  path     := "a.dd"
  expected := none
  later    := (rawSource [97, 98]).readAt
  fuel     := 4
  times    := ⟨none, none, none, none⟩

def lossless : Device String :=
  .lossless "failed to write whole buffer"

def started : AuditLog String where
  writer := AuditWriter.line lossless { file := { inner := { bytes := [] } } }
    (AuditLog.runStart none "0.1.0" "latent carve")
  path   := "out" ++ "/" ++ AUDIT_FILE_NAME

theorem custody_truncated :
    let phase := Audit.phase "carve" none
    ∃ r d, truncated.run = some r ∧ (AuditLog.close lossless (Reopened.bytes String) 2000 none
      { started with writer := (r.log ++ [phase]).foldl (AuditWriter.deliver lossless) started.writer }).2 =
        some (.ok d) ∧
      (r.log.map Event.line).Sublist (auditLines (r.log ++ [phase])) ∧ truncated.Attested r.exec r.log := by
  intro phase
  have hb : AuditLog.build lossless "out" (.ok ()) (.ok []) none "0.1.0" "latent carve" = .ok started := rfl
  have hclosed : (do
      let r ← truncated.run
      let closed ← (AuditLog.close lossless (Reopened.bytes String) 2000 none
        { started with writer := (r.log ++ [phase]).foldl (AuditWriter.deliver lossless) started.writer }).2
      some closed.failure.isNone) = some true := by
    decide +kernel
  have ⟨r, hr, hclosed⟩ := Option.bind_eq_some_iff.mp hclosed
  have ⟨closed, hd, hok⟩ := Option.bind_eq_some_iff.mp hclosed
  cases closed with
  | err e => cases hok
  | panic => cases hok
  | ok d  =>
    have hi : Interleaving ([(truncated, r)].map (·.2.log) ++ [[phase]]) (r.log ++ [phase]) := by
      simpa using Interleaving.flatten [r.log, [phase]]
    have ⟨_, _, h⟩ := custody hb (by simpa using hr) hi hd
    exact ⟨r, d, hr, hd, h _ List.mem_cons_self⟩

end

end Session
end Latent
