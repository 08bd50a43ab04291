import Latent.Core.Audit
import Latent.Core.Sha256

open Rust Text

namespace Latent

namespace AuditWriter

variable {ε : Type} {dev : Device ε} {g : AuditWriter ε} {piece : Bytes} {ps : List Bytes}

-- One write of a line, with what follows from its failure.
def put (dev : Device ε) (g : AuditWriter ε) (piece : Bytes) : AuditWriter ε :=
  if g.err.isSome then
    g
  else
    match g.file.writeAll dev piece with
    | (file, .error e) => { file, err := some e }
    | (file, .ok ())   => { g with file }

theorem put_of_err (h : g.err.isSome) : g.put dev piece = g :=
  if_pos h

theorem file_put (h : g.err = none) : (g.put dev piece).file = (g.file.writeAll dev piece).1 := by
  rw [put, if_neg (by simp [h])]
  cases g.file.writeAll dev piece with
  | mk file r => cases r <;> rfl

theorem put_of_ok {file : BufWriter UInt8} (h : g.err = none) (hw : g.file.writeAll dev piece = (file, .ok ())) :
    g.put dev piece = { g with file } := by
  simp [put, h, hw]

theorem put_of_error {file : BufWriter UInt8} {e : ε} (h : g.err = none)
    (hw : g.file.writeAll dev piece = (file, .error e)) : g.put dev piece = { file, err := some e } := by
  simp [put, h, hw]

theorem foldl_put_of_err (h : g.err.isSome) : ps.foldl (put dev) g = g := by
  induction ps with
  | nil => rfl
  | cons piece ps hi => rw [List.foldl_cons, put_of_err h, hi]

-- A line is its text and its end.
theorem line_eq_put (text : Bytes) : g.line dev text = [text, [0x0A]].foldl (put dev) g := by
  by_cases he : g.err.isSome
  case pos => rw [foldl_put_of_err he, line, if_pos he]
  case neg =>
    simp only [line, List.foldl_cons, List.foldl_nil, put, if_neg he]
    cases g.file.writeAll dev text with
    | mk file r =>
      cases r with
      | error e => simp
      | ok u => exact (if_neg he).symm

-- A writer that has no error to report has accepted all that was put into it.
structure Holds (g : AuditWriter ε) (content : Bytes) (failures : ℕ) : Prop where
  accepted : g.file.accepted = content
  failures : g.file.inner.failures = failures

theorem holds_put {content : Bytes} {failures : ℕ} (h : g.err = none → g.Holds content failures)
    (he : (g.put dev piece).err = none) : (g.put dev piece).Holds (content ++ piece) failures := by
  by_cases hg : g.err.isSome
  case pos => simp [put_of_err hg, Option.isSome_iff_ne_none.mp hg] at he
  case neg =>
    have hg : g.err = none := by simpa using hg
    cases hw : g.file.writeAll dev piece with
    | mk file r =>
      cases r with
      | error e => simp [put_of_error hg hw] at he
      | ok u =>
        have ⟨ha, hf⟩ := BufWriter.writeAll_ok hw
        rw [put_of_ok hg hw]
        exact ⟨by rw [ha, (h hg).accepted], hf.trans (h hg).failures⟩

theorem holds_foldl_put {content : Bytes} {failures : ℕ} (h : g.err = none → g.Holds content failures)
    (he : (ps.foldl (put dev) g).err = none) : (ps.foldl (put dev) g).Holds (content ++ ps.flatten) failures := by
  induction ps generalizing g content with
  | nil => simpa using h he
  | cons piece ps hi =>
    rw [List.foldl_cons] at he ⊢
    rw [List.flatten_cons, ← List.append_assoc]
    exact hi (fun he => holds_put h he) he

-- The writes that lines come to.
def writes (lines : List Bytes) : List Bytes :=
  lines.flatMap fun text => [text, [0x0A]]

theorem flatten_writes (lines : List Bytes) : (writes lines).flatten = lines.flatMap (· ++ [0x0A]) := by
  induction lines with
  | nil => rfl
  | cons text lines hi =>
    have hp : writes (text :: lines) = [text, [0x0A]] ++ writes lines := rfl
    rw [hp, List.flatten_append, hi]
    simp

theorem foldl_line (lines : List Bytes) : lines.foldl (line dev) g = (writes lines).foldl (put dev) g := by
  induction lines generalizing g with
  | nil => rfl
  | cons text lines hi =>
    have hp : writes (text :: lines) = [text, [0x0A]] ++ writes lines := rfl
    rw [List.foldl_cons, hi, hp, List.foldl_append, line_eq_put]

end AuditWriter

section

variable {ε : Type} [SerdeJson] {dev : Device ε} {g : AuditWriter ε}

-- The lines of the audit events among some events.
def auditLines (events : List Event) : List Bytes :=
  (events.filter fun event => event.target = AUDIT_TARGET).map Event.line

theorem foldl_deliver (events : List Event) :
    events.foldl (AuditWriter.deliver dev) g = (auditLines events).foldl (AuditWriter.line dev) g := by
  induction events generalizing g with
  | nil => rfl
  | cons event events hi =>
    rw [List.foldl_cons, hi, AuditWriter.deliver]
    by_cases ht : event.target = AUDIT_TARGET
    case pos => simp [ht, auditLines, AuditWriter.onEvent]
    case neg => simp [ht, auditLines]

theorem newline_not_mem_line (now : Option String) (fields : Fields) : 0x0A ∉ line now fields := by
  rw [line]
  cases hb : SerdeJson.toBytes (fields.stamp now) with
  | none   => simp
  | some b => exact SerdeJson.noNewline _ b hb

end

namespace AuditLog

variable {ε : Type} {fuel : ℕ}

section

variable [Sha256]

-- The digest is that of the file, however its reads are cut.
theorem digest_ok {content : Bytes} {path : String} {file : Reopened ε content} {d : AuditDigest}
    (h : digest path file fuel = some (.ok d)) : d.sha256 = hexDigest content ∧ d.bytes = content.length := by
  rw [digest] at h
  split at h
  case h_1 => cases h
  case h_2 => cases h
  case h_3 reader bytes ho hl =>
    rw [sha256ReaderOf_eq, Option.map_map] at h
    have ⟨x, hx, he⟩ := Option.map_eq_some_iff.mp h
    cases x with
    | err e => cases he
    | panic => cases he
    | ok l =>
      cases he
      have ⟨s', hs, hends⟩ := steps_of_fedBytes hx
      have hc := (file.reads _ _ _ ho hs).2 hends
      exact ⟨by rw [hc], file.len_eq _ hl⟩

theorem digest_isSome {content : Bytes} {path : String} {file : Reopened ε content}
    (h : content.length < fuel) : (digest path file fuel).isSome := by
  rw [digest]
  split
  case h_1 => rfl
  case h_2 => rfl
  case h_3 reader bytes ho _ =>
    rw [Option.isSome_map, sha256ReaderOf, Option.isSome_map]
    refine Reader.fold_isSome fun l s' hs => ?_
    exact Nat.lt_of_le_of_lt (file.reads _ _ _ ho hs).1.length_le h

end

variable [SerdeJson] {dev : Device ε} {log : AuditLog ε} {now : Option String}
variable {reopen : (content : Bytes) → Reopened ε content}

theorem holds_runEnd {content : Bytes} {failures : ℕ}
    (h : log.writer.err = none → log.writer.Holds content failures)
    (he : (log.writer.line dev (runEnd now)).err = none) :
    (log.writer.line dev (runEnd now)).Holds (content ++ (runEnd now ++ [0x0A])) failures := by
  rw [AuditWriter.line_eq_put] at he ⊢
  simpa using AuditWriter.holds_foldl_put h he

-- A log that is built has the line of its start, unless writing it failed.
theorem holds_build {outputDir version command : String} {created : Except ε Unit} {prior : Bytes}
    (h : build dev outputDir created (.ok prior) now version command = .ok log) (he : log.writer.err = none) :
    log.writer.Holds (prior ++ (runStart now version command ++ [0x0A])) 0 := by
  cases created with
  | error e => cases h
  | ok u =>
    cases h
    have hp : ({ file := { inner := { bytes := prior } } } : AuditWriter ε).Holds prior 0 :=
      ⟨List.append_nil prior, rfl⟩
    simp only [AuditWriter.line_eq_put] at he ⊢
    simpa using AuditWriter.holds_foldl_put (fun _ => hp) he

-- What is delivered between the start of a run and its end.
theorem holds_deliver {content : Bytes} {failures : ℕ} {g : AuditWriter ε} {events : List Event}
    (h : g.err = none → g.Holds content failures) (he : (events.foldl (AuditWriter.deliver dev) g).err = none) :
    (events.foldl (AuditWriter.deliver dev) g).Holds
      (content ++ (auditLines events).flatMap (· ++ [0x0A])) failures := by
  rw [foldl_deliver, AuditWriter.foldl_line] at he ⊢
  rw [← AuditWriter.flatten_writes]
  exact AuditWriter.holds_foldl_put h he

variable [Sha256]

-- Closing fails to write, or it has written everything and reads the file again.
theorem close_cases (dev : Device ε) (reopen : (content : Bytes) → Reopened ε content) (fuel : ℕ)
    (now : Option String) (log : AuditLog ε) :
    (∃ g e, close dev reopen fuel now log = (g, some (.err (.write e)))) ∨
    (log.writer.line dev (runEnd now)).err = none ∧ ∃ file,
      (log.writer.line dev (runEnd now)).file.flush dev = (file, .ok ()) ∧
        close dev reopen fuel now log = ({ file }, digest log.path (reopen file.inner.bytes) fuel) := by
  cases hf : (log.writer.line dev (runEnd now)).file.flush dev with
  | mk file r =>
    cases r with
    | error e =>
      refine .inl ⟨{ log.writer.line dev (runEnd now) with file }, e, ?_⟩
      simp only [close, AuditWriter.flush, hf]
    | ok u =>
      cases he : (log.writer.line dev (runEnd now)).err with
      | some e =>
        refine .inl ⟨{ file }, e, ?_⟩
        simp only [close, AuditWriter.flush, hf, AuditWriter.takeErr, he]
      | none =>
        refine .inr ⟨rfl, file, rfl, ?_⟩
        simp only [close, AuditWriter.flush, hf, AuditWriter.takeErr, he]

section

variable {content : Bytes} {failures : ℕ} (h : log.writer.err = none → log.writer.Holds content failures)

include h

-- What a closed log has in its file, if closing it succeeds.
theorem close_ok {d : AuditDigest} (hd : (close dev reopen fuel now log).2 = some (.ok d)) :
    let closed := (close dev reopen fuel now log).1
    closed.err = none ∧ closed.file.buf = [] ∧ closed.file.inner.failures = failures ∧
      closed.file.inner.bytes = content ++ (runEnd now ++ [0x0A]) ∧
        d.sha256 = hexDigest closed.file.inner.bytes ∧ d.bytes = closed.file.inner.bytes.length := by
  rcases close_cases dev reopen fuel now log with ⟨g, e, hc⟩ | ⟨he, file, hf, hc⟩
  · rw [hc] at hd
    cases hd
  · rw [hc] at hd ⊢
    have hh := holds_runEnd h he
    have ⟨hb, ha, hff⟩ := BufWriter.flush_ok hf
    rw [hh.accepted, BufWriter.accepted, hb, List.append_nil] at ha
    exact ⟨rfl, hb, hff.trans hh.failures, ha, digest_ok hd⟩

-- A write that has failed does not go unnoticed.
theorem close_err (hn : (close dev reopen fuel now log).1.file.inner.failures ≠ failures) :
    ∃ e, (close dev reopen fuel now log).2 = some (.err (.write e)) := by
  rcases close_cases dev reopen fuel now log with ⟨g, e, hc⟩ | ⟨he, file, hf, hc⟩
  · exact ⟨e, by rw [hc]⟩
  · rw [hc] at hn
    exact absurd ((BufWriter.flush_ok hf).2.2.trans (holds_runEnd h he).failures) hn

end

variable {threads : List (List Event)} {events : List Event}

-- Closing succeeds only if the file has got every line, whole and in order, and otherwise it fails.
theorem close_complete {outputDir version command : String} {created : Except ε Unit} {prior : Bytes}
    {start stop : Option String}
    (hb : build dev outputDir created (.ok prior) start version command = .ok log)
    (hi : Interleaving threads events) :
    let g := events.foldl (AuditWriter.deliver dev) log.writer
    let closed := (close dev reopen fuel stop { log with writer := g }).1
    let result := (close dev reopen fuel stop { log with writer := g }).2
    let lines := runStart start version command :: auditLines events ++ [runEnd stop]
    (∀ d, result = some (.ok d) →
      closed.file.inner.bytes = prior ++ lines.flatMap (· ++ [0x0A]) ∧ (∀ text ∈ lines, 0x0A ∉ text) ∧
        Interleaving (threads.map auditLines) (auditLines events) ∧
          d.sha256 = hexDigest closed.file.inner.bytes ∧ d.bytes = closed.file.inner.bytes.length) ∧
    (closed.file.inner.failures ≠ 0 → ∃ e, result = some (.err (.write e))) ∧
    (closed.file.inner.bytes.length < fuel → result.isSome) := by
  intro g closed result lines
  have hd : g.err = none → g.Holds _ 0 := holds_deliver (holds_build hb)
  have hn : ∀ text ∈ lines, 0x0A ∉ text := by
    simp only [lines, List.cons_append, List.mem_cons, List.mem_append, List.not_mem_nil, or_false]
    rintro text (rfl | ht | rfl)
    · exact newline_not_mem_line _ _
    · have ⟨event, _, he⟩ := List.mem_map.mp ht
      exact he ▸ newline_not_mem_line _ _
    · exact newline_not_mem_line _ _
  have ht : Interleaving (threads.map auditLines) (auditLines events) := by
    have := (hi.filter fun event => event.target = AUDIT_TARGET).map Event.line
    rwa [List.map_map] at this
  refine ⟨fun d h => ?_, close_err hd, fun hf => ?_⟩
  · have ⟨_, _, _, hbytes, hdig⟩ := close_ok hd h
    refine ⟨?_, hn, ht, hdig⟩
    rw [hbytes]
    simp [lines]
  · rcases close_cases dev reopen fuel stop { log with writer := g } with ⟨g', e, hc⟩ | ⟨_, file, _, hc⟩
    · simp [result, hc]
    · simp only [closed, result, hc] at hf ⊢
      exact digest_isSome hf

end AuditLog

-- What the members of an event serialize to, for runs on given inputs.
def SerdeJson.escape (byte : UInt8) : Bytes :=
  match byte with
  | 0x08 => [0x5C, 0x62]
  | 0x09 => [0x5C, 0x74]
  | 0x0A => [0x5C, 0x6E]
  | 0x0C => [0x5C, 0x66]
  | 0x0D => [0x5C, 0x72]
  | 0x22 => [0x5C, 0x22]
  | 0x5C => [0x5C, 0x5C]
  | byte =>
    if byte < 0x20 then
      [0x5C, 0x75, 0x30, 0x30] ++ (hexPad 2 byte.toNat).flatMap String.utf8EncodeChar
    else
      [byte]

def SerdeJson.quoted (s : String) : Bytes :=
  0x22 :: (s.toList.flatMap String.utf8EncodeChar).flatMap escape ++ [0x22]

def SerdeJson.member : String × Json → Option Bytes
  | (key, .str s)        => some (quoted key ++ 0x3A :: quoted s)
  | (key, .num (.u64 n)) => some (quoted key ++ 0x3A :: (toString n.toNat).toList.flatMap String.utf8EncodeChar)
  | _                    => none

def SerdeJson.object (fields : Fields) : Option Bytes := do
  let members ← fields.mapM member
  some (0x7B :: [0x2C].intercalate members ++ [0x7D])

@[reducible] def SerdeJson.compact : SerdeJson where
  toBytes fields     := (object fields).filter (0x0A ∉ ·)
  noNewline _ _ h := of_decide_eq_true (Option.filter_eq_some_iff.mp h).2

-- A file that fills the buffer of each read as far as it goes.
def Reopened.bytes (ε : Type) (content : Bytes) : Reopened ε content where
  State        := Bytes
  reader       := { read := fun len rest => .ok (rest.take len, rest.drop len) }
  opened       := .ok content
  len          := .ok content.length
  len_eq _ h   := (Except.ok.inj h).symm
  reads s l s' := by
    intro ho hs
    cases ho
    have ha : content = l ++ s' := by
      induction hs with
      | refl => rfl
      | step hr _ _ _ hi =>
        have ⟨hl, hd⟩ := Prod.mk.inj (Exec.ok.inj hr)
        rw [List.append_assoc, ← hi, ← hl, ← hd, List.take_append_drop]
    refine ⟨⟨s', ha.symm⟩, fun ⟨_, he⟩ => ?_⟩
    have ⟨ht, _⟩ := Prod.mk.inj (Exec.ok.inj he)
    rcases List.take_eq_nil_iff.mp ht with h₀ | hn
    · cases h₀
    · rw [ha, hn, List.append_nil]

theorem exists_of_map_bind {α : Type} {x : Option (Exec ε α)}
    (h : x.map (· >>= fun _ => .ok ()) = some (.ok ())) : ∃ a, x = some (.ok a) := by
  obtain ⟨_, hx, h⟩ := Option.map_eq_some_iff.mp h
  obtain ⟨a, rfl, _⟩ := Exec.bind_eq_ok.mp h
  exact ⟨a, hx⟩

section

attribute [local instance] Sha256.standard SerdeJson.compact

theorem AuditLog.close_complete_twoThreads :
    let opened := Audit.sourceOpen "a.dd" 512 none
    let phase := Audit.phase "carve" none
    let dev : Device String := .lossless "failed to write whole buffer"
    ∃ log, build dev "out" (.ok ()) (.ok []) none "0.1.0" "latent carve" = .ok log ∧
      Interleaving [[phase], [opened]] [opened, phase] ∧
        let g := [opened, phase].foldl (AuditWriter.deliver dev) log.writer
        let closed := (close dev (Reopened.bytes String) 1000 none { log with writer := g }).1
        let result := (close dev (Reopened.bytes String) 1000 none { log with writer := g }).2
        ∃ d, result = some (.ok d) ∧ closed.file.inner.bytes =
          [runStart none "0.1.0" "latent carve", opened.line, phase.line, runEnd none].flatMap (· ++ [0x0A]) := by
  intro opened phase dev
  have hb : build dev "out" (.ok ()) (.ok []) none "0.1.0" "latent carve" = .ok _ := rfl
  have hi : Interleaving [[phase], [opened]] [opened, phase] :=
    .step (i := 1) rfl (.step (i := 0) rfl (.done (by simp)))
  refine ⟨_, hb, hi, Exists.imp (fun d hd => ⟨hd, ((close_complete hb hi).1 d hd).1⟩) (exists_of_map_bind ?_)⟩
  decide +kernel

end

end Latent
