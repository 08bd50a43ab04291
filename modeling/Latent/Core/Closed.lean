import Latent.Core.Trail
import Mathlib.Algebra.Order.BigOperators.Group.List
import Mathlib.Algebra.Order.Ring.Nat

open Rust Text

namespace Latent

namespace AuditWriter

variable {ε : Type} {dev : Device ε} {g : AuditWriter ε} {piece : Bytes} {ps : List Bytes}

-- What is in the file stays there.
theorem length_le_put : g.file.inner.bytes.length ≤ (g.put dev piece).file.inner.bytes.length := by
  cases he : g.err with
  | none =>
    rw [file_put he]
    exact BufWriter.length_le_of_writeAll rfl
  | some e => rw [put_of_err (by simp [he])]

theorem length_le_foldl_put : g.file.inner.bytes.length ≤ (ps.foldl (put dev) g).file.inner.bytes.length := by
  induction ps generalizing g with
  | nil => exact Nat.le_refl _
  | cons piece ps hi => exact Nat.le_trans length_le_put hi

theorem capacity_put : (g.put dev piece).file.capacity = g.file.capacity := by
  cases he : g.err with
  | none =>
    rw [file_put he]
    exact BufWriter.capacity_of_writeAll rfl
  | some e => rw [put_of_err (by simp [he])]

theorem capacity_foldl_put : (ps.foldl (put dev) g).file.capacity = g.file.capacity := by
  induction ps generalizing g with
  | nil => rfl
  | cons piece ps hi => rw [List.foldl_cons, hi, capacity_put]

-- The first write to the file decides: if it fails, nothing follows it.
theorem bytes_foldl_put_of_not_fits (he : g.err = none) (h₀ : piece ≠ []) (hf : ¬g.file.Fits piece.length) :
    (ps.foldl (put dev) (g.put dev piece)).file.inner.bytes = g.file.inner.bytes ↔
      ¬dev.Transfers g.file.inner.calls (g.file.attempt piece.length) := by
  constructor
  case mp =>
    intro hn ht
    have hlt : g.file.inner.bytes.length < (g.put dev piece).file.inner.bytes.length := by
      rw [file_put he]
      exact BufWriter.length_lt_of_writeAll hf h₀ ht rfl
    have hle : _ ≤ (ps.foldl (put dev) (g.put dev piece)).file.inner.bytes.length := length_le_foldl_put
    rw [hn] at hle
    exact absurd hlt (Nat.not_lt.mpr hle)
  case mpr =>
    intro ht
    obtain ⟨e, w, hw, hb⟩ := BufWriter.writeAll_of_not_transfers hf h₀ ht
    rw [put_of_error he hw, foldl_put_of_err rfl]
    exact hb

-- The file is as it was if it is not written to, or if the first write to it fails.
theorem bytes_foldl_put_eq_iff (he : g.err = none) (hc : 0 < g.file.capacity)
    (hu : g.file.buf.length ≤ g.file.capacity) :
    (ps.foldl (put dev) g).file.inner.bytes = g.file.inner.bytes ↔
      ∀ len, BufWriter.firstWrite g.file.capacity g.file.buf.length (ps.map List.length) = some len →
        ¬dev.Transfers g.file.inner.calls len := by
  induction ps generalizing g with
  | nil => simp [BufWriter.firstWrite]
  | cons piece ps hi =>
    rw [List.foldl_cons, List.map_cons]
    by_cases hf : g.file.Fits piece.length
    case pos =>
      rw [BufWriter.firstWrite_of_fits hf, put_of_ok he (BufWriter.writeAll_of_fits hf)]
      have hu : (g.file.push piece).buf.length ≤ g.file.capacity := by simpa [BufWriter.push] using hf.1
      simpa [BufWriter.push] using hi (g := { g with file := g.file.push piece }) he hc hu
    case neg =>
      have h₀ : piece ≠ [] := by
        rintro rfl
        exact hf ⟨hu, hc⟩
      rw [bytes_foldl_put_of_not_fits he h₀ hf, BufWriter.firstWrite_eq_attempt hf]
      simp

variable [SerdeJson]

-- The length of the first write to the file that later events lead to, through an empty buffer.
def firstSpill (later : List Event) : Option ℕ :=
  BufWriter.firstWrite (8 * 1024) 0 ((writes (auditLines later)).map List.length)

theorem firstSpill_eq_none_iff {later : List Event} :
    firstSpill later = none ↔ ((auditLines later).map (·.length + 1)).sum ≤ 8 * 1024 := by
  have hs : ∀ lines, ((writes lines).map List.length).sum = (lines.map (·.length + 1)).sum := by
    intro lines
    rw [← List.length_flatten, flatten_writes, List.length_flatMap]
    simp
  rw [firstSpill, BufWriter.firstWrite_eq_none_iff (Nat.zero_le _), Nat.zero_add, hs, and_iff_left_iff_imp]
  intro hle n hn
  have ⟨piece, hp, hl⟩ := List.mem_map.mp hn
  have ⟨text, ht, hm⟩ := List.mem_flatMap.mp hp
  have hle := Nat.le_trans (List.single_le_sum (by simp) _ (List.mem_map_of_mem ht)) hle
  simp only [List.mem_cons, List.not_mem_nil, or_false] at hm
  rcases hm with rfl | rfl
  · omega
  · rw [← hl]
    decide

theorem firstSpill_of_prefix {past later : List Event} {len : ℕ} (hp : past <+: later)
    (h : firstSpill past = some len) : firstSpill later = some len := by
  obtain ⟨rest, rfl⟩ := hp
  rw [firstSpill, auditLines, List.filter_append, List.map_append, writes, List.flatMap_append, List.map_append]
  exact BufWriter.firstWrite_append h _

-- Whatever of the later events has come to the writer, the digest is that of the file.
def StaysClosed (dev : Device ε) (closed : AuditWriter ε) [Sha256] (d : AuditDigest) (later : List Event) : Prop :=
  ∀ past, past <+: later →
    let file := (past.foldl (deliver dev) closed).file.inner
    file.bytes = closed.file.inner.bytes ∧ d.sha256 = hexDigest file.bytes ∧ d.bytes = file.bytes.length

theorem bytes_foldl_deliver_eq_iff (he : g.err = none) (hb : g.file.buf = []) (hc : g.file.capacity = 8 * 1024)
    (past : List Event) : (past.foldl (deliver dev) g).file.inner.bytes = g.file.inner.bytes ↔
      ∀ len, firstSpill past = some len → ¬dev.Transfers g.file.inner.calls len := by
  rw [foldl_deliver, foldl_line, bytes_foldl_put_eq_iff he (by omega) (by simp [hb]), hc, hb, firstSpill]
  rfl

theorem staysClosed_of_flushed [Sha256] {d : AuditDigest} (he : g.err = none) (hb : g.file.buf = [])
    (hc : g.file.capacity = 8 * 1024)
    (hd : d.sha256 = hexDigest g.file.inner.bytes ∧ d.bytes = g.file.inner.bytes.length) (later : List Event) :
    g.StaysClosed dev d later ↔ ((auditLines later).map (·.length + 1)).sum ≤ 8 * 1024 ∨
      ∃ len, firstSpill later = some len ∧ ¬dev.Transfers g.file.inner.calls len := by
  rw [← firstSpill_eq_none_iff]
  constructor
  case mp =>
    intro h
    have ht := (bytes_foldl_deliver_eq_iff he hb hc later).mp (h later List.prefix_rfl).1
    cases hs : firstSpill later with
    | none     => exact .inl rfl
    | some len => exact .inr ⟨len, rfl, ht len hs⟩
  case mpr =>
    intro h past hp
    have hbytes : (past.foldl (deliver dev) g).file.inner.bytes = g.file.inner.bytes := by
      refine (bytes_foldl_deliver_eq_iff he hb hc past).mpr fun len hs => ?_
      have hl := firstSpill_of_prefix hp hs
      rcases h with hn | ⟨_, hl', ht⟩
      · rw [hn] at hl
        cases hl
      · rw [hl', Option.some.injEq] at hl
        exact hl ▸ ht
    refine ⟨hbytes, ?_⟩
    rwa [hbytes]

end AuditWriter

namespace AuditLog

variable {ε : Type} [SerdeJson] {dev : Device ε} {log : AuditLog ε} {fuel : ℕ}

theorem capacity_build {outputDir version command : String} {created : Except ε Unit} {opened : Except ε Bytes}
    {start : Option String} (hb : build dev outputDir created opened start version command = .ok log) :
    log.writer.file.capacity = 8 * 1024 := by
  cases created with
  | error e => cases hb
  | ok u =>
    cases opened with
    | error e => cases hb
    | ok prior =>
      cases hb
      simp only [AuditWriter.line_eq_put, AuditWriter.capacity_foldl_put]

variable [Sha256] {reopen : (content : Bytes) → Reopened ε content} {d : AuditDigest}

theorem capacity_close {stop : Option String} (hd : (close dev reopen fuel stop log).2 = some (.ok d)) :
    (close dev reopen fuel stop log).1.file.capacity = log.writer.file.capacity := by
  rcases close_cases dev reopen fuel stop log with ⟨g, e, hc⟩ | ⟨_, file, hf, hc⟩
  · rw [hc] at hd
    cases hd
  · rw [hc, BufWriter.capacity_of_flush hf, AuditWriter.line_eq_put, AuditWriter.capacity_foldl_put]

theorem staysClosed_iff {outputDir version command : String} {created : Except ε Unit} {prior : Bytes}
    {start stop : Option String}
    (hb : build dev outputDir created (.ok prior) start version command = .ok log)
    (events : List Event) (hd : (close dev reopen fuel stop
      { log with writer := events.foldl (AuditWriter.deliver dev) log.writer }).2 = some (.ok d))
    (later : List Event) :
    let closed := (close dev reopen fuel stop
      { log with writer := events.foldl (AuditWriter.deliver dev) log.writer }).1
    closed.StaysClosed dev d later ↔
      ((auditLines later).map (·.length + 1)).sum ≤ 8 * 1024 ∨
        ∃ len, AuditWriter.firstSpill later = some len ∧ ¬dev.Transfers closed.file.inner.calls len := by
  intro closed
  have ⟨he, hbuf, _, _, hdig⟩ := close_ok (holds_deliver (holds_build hb)) hd
  have hcap : closed.file.capacity = 8 * 1024 := by
    rw [capacity_close hd, foldl_deliver, AuditWriter.foldl_line, AuditWriter.capacity_foldl_put, capacity_build hb]
  exact AuditWriter.staysClosed_of_flushed he hbuf hcap hdig later

end AuditLog

namespace AuditLog

attribute [local instance] Sha256.standard SerdeJson.compact

theorem staysClosed_iff_hashed :
    let dev : Device String := .lossless "failed to write whole buffer"
    let later := [Audit.sourceHash .close "sha256" "ba7816bf" none, Audit.sourceClose "a.dd" none]
    ∃ log d, build dev "out" (.ok ()) (.ok []) none "0.1.0" "latent carve" = .ok log ∧
      (close dev (Reopened.bytes String) 1000 none log).2 = some (.ok d) ∧
        (close dev (Reopened.bytes String) 1000 none log).1.StaysClosed dev d later := by
  intro dev later
  have hb : build dev "out" (.ok ()) (.ok []) none "0.1.0" "latent carve" = .ok _ := rfl
  refine ⟨_, _, hb, rfl, ?_⟩
  exact (staysClosed_iff hb [] rfl later).mpr (.inl (by decide +kernel))

-- The buffer overflows with enough events, and their lines follow the last one of the file.
theorem not_staysClosed_phases :
    let dev : Device String := .lossless "failed to write whole buffer"
    ∃ log d, build dev "out" (.ok ()) (.ok []) none "0.1.0" "latent carve" = .ok log ∧
      (close dev (Reopened.bytes String) 1000 none log).2 = some (.ok d) ∧
        ¬(close dev (Reopened.bytes String) 1000 none log).1.StaysClosed dev d
          (List.replicate 300 (Audit.phase "carve" none)) := by
  intro dev
  have hn : ∀ {log d}, build dev "out" (.ok ()) (.ok []) none "0.1.0" "latent carve" = .ok log →
      (close dev (Reopened.bytes String) 1000 none log).2 = some (.ok d) →
        ¬(close dev (Reopened.bytes String) 1000 none log).1.StaysClosed dev d
          (List.replicate 300 (Audit.phase "carve" none)) := by
    intro log d hb hd h
    have ⟨he, hbuf, _⟩ := close_ok (holds_build hb) hd
    have hc := (capacity_close hd).trans (capacity_build hb)
    have hs : AuditWriter.firstSpill (List.replicate 300 (Audit.phase "carve" none)) = some 8192 := by
      decide +kernel
    exact (AuditWriter.bytes_foldl_deliver_eq_iff he hbuf hc _).mp (h _ List.prefix_rfl).1 _ hs ⟨8191, rfl⟩
  exact ⟨_, _, rfl, rfl, hn rfl rfl⟩

end AuditLog
end Latent
