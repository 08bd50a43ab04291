import Latent.Core.Trail
import Latent.Rust.Durable

open Rust Text

namespace Latent

-- What is left of some lines where their file ends early: whole lines from the first one on, and after
-- them perhaps the front of the next one.
def Cut (lines : List Bytes) (left : Bytes) : Prop :=
  ∃ k part, left = (lines.take k).flatMap (· ++ [0x0A]) ++ part ∧
    (part = [] ∨ ∃ text, lines[k]? = some text ∧ part <+: text)

-- Any part from the front is of this kind.
theorem cut_of_prefix {lines : List Bytes} {left : Bytes} (h : left <+: lines.flatMap (· ++ [0x0A])) :
    Cut lines left := by
  induction lines generalizing left with
  | nil => exact ⟨0, [], by simpa using h, .inl rfl⟩
  | cons text lines hi =>
    rw [List.flatMap_cons, List.append_assoc] at h
    rcases List.prefix_or_prefix_of_prefix h (List.prefix_append ..) with hl | ⟨rest, rfl⟩
    · exact ⟨0, left, by simp, .inr ⟨text, rfl, hl⟩⟩
    · rw [List.prefix_append_right_inj] at h
      cases rest with
      | nil => exact ⟨0, text, by simp, .inr ⟨text, rfl, List.prefix_rfl⟩⟩
      | cons b rest =>
        have ⟨hb, h⟩ := List.cons_prefix_cons.mp h
        obtain ⟨k, part, rfl, hp⟩ := hi h
        exact ⟨k + 1, part, by simp [hb], hp⟩

namespace AuditWriter

variable {ε : Type} {dev : Device ε} {g : AuditWriter ε} {piece content : Bytes} {ps : List Bytes}

-- A writer that has been given some content. It has accepted all of it if no call to the file has
-- failed, and a part from its front in any case.
structure Given (g : AuditWriter ε) (content : Bytes) : Prop where
  accepted : g.file.accepted <+: content
  all      : g.err = none → g.file.accepted = content
  failed   : g.file.inner.failures = 0 → g.err = none
  pending  : g.file.buf.length ≤ g.file.capacity

theorem given_new (prior : Bytes) : ({ file := { inner := { bytes := prior } } } : AuditWriter ε).Given prior where
  accepted := ⟨[], by simp [BufWriter.accepted]⟩
  all _    := List.append_nil prior
  failed _ := rfl
  pending  := Nat.zero_le _

theorem given_put (dev : Device ε) (piece : Bytes) (h : g.Given content) : (g.put dev piece).Given (content ++ piece) ∧
    g.file.inner.bytes <+: (g.put dev piece).file.inner.bytes ∧ (g.put dev piece).file.capacity = g.file.capacity := by
  by_cases he : g.err.isSome
  case pos =>
    have hne : g.err ≠ none := Option.isSome_iff_ne_none.mp he
    rw [put_of_err he]
    exact ⟨⟨h.accepted.trans (List.prefix_append ..), fun hn => absurd hn hne, h.failed, h.pending⟩,
      List.prefix_rfl, rfl⟩
  case neg =>
    have he : g.err = none := by simpa using he
    cases hw : g.file.writeAll dev piece with
    | mk file r =>
      have ⟨p, hp, hx, ho, hlt⟩ := BufWriter.writeAll_extends hw
      cases r with
      | ok u =>
        rw [put_of_ok he hw]
        have ha : file.accepted = content ++ piece := by rw [hx.accepted, h.all he, ho rfl]
        exact ⟨⟨ha ▸ List.prefix_rfl, fun _ => ha, fun _ => he, hx.pending h.pending⟩, hx.bytes, hx.capacity⟩
      | error e =>
        rw [put_of_error he hw]
        refine ⟨⟨?_, nofun, fun hf => ?_, hx.pending h.pending⟩, hx.bytes, hx.capacity⟩
        · rw [hx.accepted, h.all he]
          exact (List.prefix_append_right_inj content).mpr hp
        · have := hlt e rfl
          dsimp only at hf
          omega

theorem given_foldl_put (h : g.Given content) : (ps.foldl (put dev) g).Given (content ++ ps.flatten) ∧
    g.file.inner.bytes <+: (ps.foldl (put dev) g).file.inner.bytes ∧
      (ps.foldl (put dev) g).file.capacity = g.file.capacity := by
  induction ps generalizing g content with
  | nil => exact ⟨by simpa using h, List.prefix_rfl, rfl⟩
  | cons piece ps hi =>
    have ⟨hg, hb, hc⟩ := given_put dev piece h
    have ⟨hg', hb', hc'⟩ := hi hg
    rw [List.foldl_cons, List.flatten_cons, ← List.append_assoc]
    exact ⟨hg', hb.trans hb', hc'.trans hc⟩

theorem given_foldl_line (dev : Device ε) (h : g.Given content) (lines : List Bytes) :
    (lines.foldl (line dev) g).Given (content ++ lines.flatMap (· ++ [0x0A])) ∧
      g.file.inner.bytes <+: (lines.foldl (line dev) g).file.inner.bytes ∧
        (lines.foldl (line dev) g).file.capacity = g.file.capacity := by
  rw [foldl_line, ← flatten_writes]
  exact given_foldl_put h

end AuditWriter
-- A run that logs to a file: how the calls come out, the events, and the time of its last line. There is
-- no such line if the run does not get that far.
structure AuditRun (ε : Type) where
  dev       : Device ε
  outputDir : String
  created   : Except ε Unit
  opened    : Except ε Unit
  version   : String
  command   : String
  start     : Option String
  events    : List Event
  stop      : Option (Option String)

namespace AuditRun

variable {ε : Type} [SerdeJson]

def lines (r : AuditRun ε) : List Bytes :=
  AuditLog.runStart r.start r.version r.command :: auditLines r.events ++ r.stop.toList.map AuditLog.runEnd

-- The run as it was after some of the events.
def upTo (r : AuditRun ε) (past : List Event) : AuditRun ε :=
  { r with events := past, stop := none }

def Started (r : AuditRun ε) : Prop :=
  r.created.isOk ∧ r.opened.isOk

def log (r : AuditRun ε) (prior : Bytes) : Exec (AuditError ε) (AuditLog ε) := do
  let log ← AuditLog.build r.dev r.outputDir r.created (r.opened.map fun _ => prior) r.start r.version r.command
  .ok { log with writer := r.events.foldl (AuditWriter.deliver r.dev) log.writer }

variable {r : AuditRun ε} {prior : Bytes}

theorem newline_not_mem_lines (r : AuditRun ε) : ∀ text ∈ r.lines, 0x0A ∉ text := by
  simp only [lines, List.cons_append, List.mem_cons, List.mem_append, List.mem_map]
  rintro text (rfl | ht | ⟨_, _, rfl⟩)
  · exact newline_not_mem_line _ _
  · obtain ⟨event, _, he⟩ := List.mem_map.mp ht
    exact he ▸ newline_not_mem_line _ _
  · exact newline_not_mem_line _ _

-- The writer that has got all lines of the run.
def written (r : AuditRun ε) (prior : Bytes) : AuditWriter ε :=
  r.lines.foldl (AuditWriter.line r.dev) { file := { inner := { bytes := prior } } }

-- What a run leaves in the file comes after what was there before. It is a part from the front of its
-- lines, and no more than a buffer is missing if no call to the file has failed.
structure Leaves (r : AuditRun ε) (prior : Bytes) (left : AppendFile UInt8) (cut : Bytes) : Prop where
  bytes   : left.bytes = prior ++ cut
  whole   : Cut r.lines cut
  pending : r.Started → left.failures = 0 → (r.lines.flatMap (· ++ [0x0A])).length ≤ cut.length + 8 * 1024

theorem leaves_of_given {g : AuditWriter ε} {w : BufWriter UInt8}
    (h : g.Given (prior ++ r.lines.flatMap (· ++ [0x0A]))) (hb : prior <+: g.file.inner.bytes)
    (hc : g.file.capacity = 8 * 1024) (hx : g.file.Extends w []) : ∃ cut, r.Leaves prior w.inner cut := by
  obtain ⟨cut, hcut⟩ := hb.trans hx.bytes
  have ha : w.accepted = g.file.accepted := by simpa using hx.accepted
  have hp : prior ++ cut <+: prior ++ r.lines.flatMap (· ++ [0x0A]) := by
    have hw : w.inner.bytes <+: w.accepted := List.prefix_append ..
    rw [hcut]
    exact (ha ▸ hw).trans h.accepted
  refine ⟨cut, hcut.symm, cut_of_prefix ((List.prefix_append_right_inj prior).mp hp), fun _ hf => ?_⟩
  have hall := h.all (h.failed (Nat.le_zero.mp (hf ▸ hx.failures)))
  have hl := congrArg List.length (ha.trans hall)
  have hu := hx.pending h.pending
  rw [hx.capacity, hc] at hu
  rw [BufWriter.accepted, ← hcut, List.append_assoc, List.length_append, List.length_append, List.length_append] at hl
  omega

theorem given_written (r : AuditRun ε) (prior : Bytes) :
    (r.written prior).Given (prior ++ r.lines.flatMap (· ++ [0x0A])) ∧ prior <+: (r.written prior).file.inner.bytes ∧
      (r.written prior).file.capacity = 8 * 1024 :=
  AuditWriter.given_foldl_line r.dev (AuditWriter.given_new prior) r.lines

variable [Sha256] (reopen : (content : Bytes) → Reopened ε content) (fuel : ℕ)

-- The file at the end, of which there was something before.
def file (r : AuditRun ε) (prior : Bytes) : AppendFile UInt8 :=
  match r.log prior with
  | .ok log =>
    match r.stop with
    | none      => log.writer.file.inner
    | some stop => (AuditLog.close r.dev reopen fuel stop log).1.file.inner
  | _       => { bytes := prior }

variable {reopen fuel}

theorem file_close (dev : Device ε) (stop : Option String) (log : AuditLog ε) :
    (AuditLog.close dev reopen fuel stop log).1.file =
      ((log.writer.line dev (AuditLog.runEnd stop)).file.flush dev).1 := by
  cases hf : (log.writer.line dev (AuditLog.runEnd stop)).file.flush dev with
  | mk file r =>
    simp only [AuditLog.close, AuditWriter.flush, hf]
    cases r with
    | error e => rfl
    | ok u    => cases (log.writer.line dev (AuditLog.runEnd stop)).err <;> rfl

theorem file_of_started (h : r.Started) (prior : Bytes) : r.file reopen fuel prior =
    match r.stop with
    | none   => (r.written prior).file.inner
    | some _ => ((r.written prior).file.flush r.dev).1.inner := by
  obtain ⟨dev, outputDir, created, opened, version, command, start, events, stop⟩ := r
  obtain ⟨hc, ho⟩ := h
  cases created with
  | error e => cases hc
  | ok u =>
    cases opened with
    | error e => cases ho
    | ok u' =>
      cases stop with
      | none => simp [file, log, AuditLog.build, AuditWriter.create, Except.map, written, lines, foldl_deliver]
      | some stop =>
        simp [file, log, AuditLog.build, AuditWriter.create, Except.map, written, lines, foldl_deliver, file_close]

theorem file_of_not_started (h : ¬r.Started) (prior : Bytes) : r.file reopen fuel prior = { bytes := prior } := by
  obtain ⟨dev, outputDir, created, opened, version, command, start, events, stop⟩ := r
  cases created with
  | error e => rfl
  | ok u =>
    cases opened with
    | error e => rfl
    | ok u'   => exact absurd ⟨rfl, rfl⟩ h

theorem file_leaves (reopen : (content : Bytes) → Reopened ε content) (fuel : ℕ) (r : AuditRun ε) (prior : Bytes) :
    ∃ cut, r.Leaves prior (r.file reopen fuel prior) cut := by
  by_cases hs : r.Started
  case neg =>
    rw [file_of_not_started hs]
    exact ⟨[], (List.append_nil prior).symm, ⟨0, [], rfl, .inl rfl⟩, fun h => absurd h hs⟩
  case pos =>
    obtain ⟨hg, hb, hc⟩ := given_written r prior
    rw [file_of_started hs]
    split
    · exact leaves_of_given hg hb hc (.refl _)
    · exact leaves_of_given hg hb hc (BufWriter.flush_extends rfl)

-- Nothing that has been in the file at some point of a run is gone later.
theorem file_upTo {past : List Event} (hp : past <+: r.events) (prior : Bytes) :
    ((r.upTo past).file reopen fuel prior).bytes <+: (r.file reopen fuel prior).bytes := by
  by_cases hs : r.Started
  case neg =>
    have he : (r.upTo past).file reopen fuel prior = r.file reopen fuel prior := by
      rw [file_of_not_started hs, file_of_not_started (r := r.upTo past) hs]
    exact he ▸ List.prefix_rfl
  case pos =>
    obtain ⟨rest, hrest⟩ := hp
    have hl : r.lines = (r.upTo past).lines ++ (auditLines rest ++ r.stop.toList.map AuditLog.runEnd) := by
      simp [lines, upTo, ← hrest, auditLines]
    have hw : r.written prior = (auditLines rest ++ r.stop.toList.map AuditLog.runEnd).foldl
        (AuditWriter.line r.dev) ((r.upTo past).written prior) := by
      rw [written, hl, List.foldl_append]
      rfl
    obtain ⟨hg, _⟩ := given_written (r.upTo past) prior
    obtain ⟨_, hb, _⟩ := AuditWriter.given_foldl_line r.dev hg
      (auditLines rest ++ r.stop.toList.map AuditLog.runEnd)
    rw [← hw] at hb
    have hpast : (r.upTo past).file reopen fuel prior = ((r.upTo past).written prior).file.inner :=
      file_of_started (r := r.upTo past) hs prior
    rw [file_of_started hs, hpast]
    split
    · exact hb
    · exact hb.trans (BufWriter.flush_extends rfl).bytes

variable (reopen fuel)

-- The file after some runs, one after the other.
def history (runs : List (AuditRun ε)) (prior : Bytes) : Bytes :=
  runs.foldl (fun bytes r => (r.file reopen fuel bytes).bytes) prior

-- Whatever becomes of the runs that log to a file, and however the calls to it fail: the file only grows, by
-- whole lines of each run in their order and at most one that is cut off, and a run that is interrupted
-- without such a failure loses no more than what fits into the buffer.
theorem history_grows (runs : List (AuditRun ε)) (prior : Bytes) :
    (∀ r ∈ runs, ∀ text ∈ r.lines, 0x0A ∉ text) ∧
    ∃ cuts : List Bytes, cuts.length = runs.length ∧ history reopen fuel runs prior = prior ++ cuts.flatten ∧
      ∀ i r cut, runs[i]? = some r → cuts[i]? = some cut →
        let before := prior ++ (cuts.take i).flatten
        r.Leaves before (r.file reopen fuel before) cut ∧
          ∀ past, past <+: r.events → ((r.upTo past).file reopen fuel before).bytes <+: before ++ cut := by
  refine ⟨fun r _ => r.newline_not_mem_lines, ?_⟩
  induction runs generalizing prior with
  | nil => exact ⟨[], rfl, by simp [history], by simp⟩
  | cons r runs hi =>
    have ⟨cut, hl⟩ := file_leaves reopen fuel r prior
    have ⟨cuts, hlen, hh, hc⟩ := hi (prior ++ cut)
    refine ⟨cut :: cuts, by simp [hlen], ?_, ?_⟩
    · rw [history, List.foldl_cons, hl.bytes, List.flatten_cons, ← List.append_assoc]
      exact hh
    · rintro (_ | i) r' cut' hr hcut
      · cases hr
        cases hcut
        rw [List.take_zero, List.flatten_nil, List.append_nil]
        exact ⟨hl, fun past hp => hl.bytes ▸ file_upTo hp prior⟩
      · rw [List.take_succ_cons, List.flatten_cons, ← List.append_assoc]
        exact hc i r' cut' hr hcut

end AuditRun
end Latent
