import Mathlib.Algebra.GroupWithZero.Nat
import Mathlib.Data.List.Basic
import Mathlib.Tactic.Common

namespace Rust

variable {ε α : Type}

-- How the calls to a file come out, by their number: what a write of some length transfers, and whether
-- a flush succeeds. An interrupted write is made again until it is not, so it has no place here.
structure Device (ε : Type) where
  write     : (call len : ℕ) → Except ε ℕ
  flush     : (call : ℕ) → Except ε Unit
  writeZero : ε

def Device.Transfers (dev : Device ε) (call len : ℕ) : Prop :=
  ∃ n, dev.write call len = .ok (n + 1)

-- Every write transfers all of its buffer.
def Device.lossless (writeZero : ε) : Device ε where
  write _ len := .ok len
  flush _     := .ok ()
  writeZero

-- A file that is open for appending, how many calls there were, and how many of them have failed.
structure AppendFile (α : Type) where
  bytes    : List α
  calls    : ℕ := 0
  failures : ℕ := 0
  deriving DecidableEq, Repr

namespace AppendFile

variable {dev : Device ε} {d d' : AppendFile α} {buf rest : List α} {fuel : ℕ} {r : Except ε Unit}

def fail (d : AppendFile α) : AppendFile α :=
  { d with calls := d.calls + 1, failures := d.failures + 1 }

def append (d : AppendFile α) (l : List α) : AppendFile α :=
  { d with bytes := d.bytes ++ l, calls := d.calls + 1 }

-- A write that transfers nothing is a failure for all of its callers.
def write (dev : Device ε) (d : AppendFile α) (buf : List α) : AppendFile α × Except ε ℕ :=
  match dev.write d.calls buf.length with
  | .error e    => (d.fail, .error e)
  | .ok 0       => (d.fail, .error dev.writeZero)
  | .ok (n + 1) =>
    let n := min (n + 1) buf.length
    (d.append (buf.take n), .ok n)

def flush (dev : Device ε) (d : AppendFile α) : AppendFile α × Except ε Unit :=
  match dev.flush d.calls with
  | .error e => (d.fail, .error e)
  | .ok ()   => (d.append [], .ok ())

-- Writing until nothing is left or a write fails. The fuel bounds the number of writes: it never runs
-- out when it starts at the length of the buffer, as every write that succeeds transfers something.
def drain (dev : Device ε) : (fuel : ℕ) → AppendFile α → List α → AppendFile α × List α × Except ε Unit
  | _, d, []               => (d, [], .ok ())
  | 0, d, b :: buf         => (d, b :: buf, .error dev.writeZero)
  | fuel + 1, d, b :: buf =>
    match d.write dev (b :: buf) with
    | (d, .error e) => (d, b :: buf, .error e)
    | (d, .ok n)    => drain dev fuel d ((b :: buf).drop n)

theorem write_of_transfers (h : dev.Transfers d.calls buf.length) (h₀ : buf ≠ []) :
    ∃ n, 0 < n ∧ n ≤ buf.length ∧ d.write dev buf = (d.append (buf.take n), .ok n) := by
  have ⟨n, hn⟩ := h
  have hp := List.length_pos_iff.mpr h₀
  exact ⟨min (n + 1) buf.length, by omega, Nat.min_le_right .., by rw [write, hn]⟩

theorem write_of_not_transfers (h : ¬dev.Transfers d.calls buf.length) :
    ∃ e, d.write dev buf = (d.fail, .error e) := by
  rw [write]
  cases hw : dev.write d.calls buf.length with
  | error e => exact ⟨e, rfl⟩
  | ok n =>
    cases n with
    | zero   => exact ⟨_, rfl⟩
    | succ n => exact absurd ⟨n, hw⟩ h

-- What is written is a part from the front of the buffer, and all of it if there is no failure.
structure Drained (d : AppendFile α) (buf : List α) (d' : AppendFile α) (rest : List α) (r : Except ε Unit) :
    Prop where
  written : ∃ sent, buf = sent ++ rest ∧ d'.bytes = d.bytes ++ sent
  ok      : r = .ok () → rest = [] ∧ d'.failures = d.failures

theorem drain_drained (hf : buf.length ≤ fuel) (h : drain dev fuel d buf = (d', rest, r)) :
    Drained d buf d' rest r := by
  induction fuel generalizing d buf with
  | zero =>
    rw [List.length_eq_zero_iff.mp (Nat.le_zero.mp hf)] at h ⊢
    cases h
    exact ⟨⟨[], by simp⟩, fun _ => ⟨rfl, rfl⟩⟩
  | succ fuel hi =>
    cases buf with
    | nil =>
      cases h
      exact ⟨⟨[], by simp⟩, fun _ => ⟨rfl, rfl⟩⟩
    | cons b buf =>
      by_cases ht : dev.Transfers d.calls (b :: buf).length
      case pos =>
        have ⟨n, h₀, hn, hw⟩ := write_of_transfers (d := d) ht (by simp)
        simp only [drain, hw] at h
        have hl : ((b :: buf).drop n).length ≤ fuel := by
          rw [List.length_drop]
          omega
        have ⟨⟨sent, hs, hb⟩, ho⟩ := hi hl h
        refine ⟨⟨(b :: buf).take n ++ sent, ?_, ?_⟩, ho⟩
        · rw [List.append_assoc, ← hs, List.take_append_drop]
        · rw [hb, append, List.append_assoc]
      case neg =>
        have ⟨e, hw⟩ := write_of_not_transfers (d := d) ht
        simp only [drain, hw] at h
        cases h
        exact ⟨⟨[], by simp [fail]⟩, fun he => by cases he⟩

theorem length_le_of_drain (hf : buf.length ≤ fuel) (h : drain dev fuel d buf = (d', rest, r)) :
    d.bytes.length ≤ d'.bytes.length := by
  have ⟨_, _, hb⟩ := (drain_drained hf h).written
  rw [hb, List.length_append]
  omega

-- The first write decides whether anything is written at all.
theorem length_lt_of_drain (h₀ : buf ≠ []) (hf : buf.length ≤ fuel) (ht : dev.Transfers d.calls buf.length)
    (h : drain dev fuel d buf = (d', rest, r)) : d.bytes.length < d'.bytes.length := by
  have ⟨n, hp, hn, hw⟩ := write_of_transfers (d := d) ht h₀
  cases buf with
  | nil => exact absurd rfl h₀
  | cons b buf =>
    cases fuel with
    | zero => simp at hf
    | succ fuel =>
      simp only [drain, hw] at h
      have hl : ((b :: buf).drop n).length ≤ fuel := by
        rw [List.length_drop]
        omega
      have hle := length_le_of_drain hl h
      rw [append, List.length_append, List.length_take] at hle
      omega

theorem drain_of_not_transfers (h₀ : buf ≠ []) (hf : buf.length ≤ fuel)
    (ht : ¬dev.Transfers d.calls buf.length) : ∃ e, drain dev fuel d buf = (d.fail, buf, .error e) := by
  have ⟨e, hw⟩ := write_of_not_transfers (d := d) ht
  cases buf with
  | nil => exact absurd rfl h₀
  | cons b buf =>
    cases fuel with
    | zero => simp at hf
    | succ fuel =>
      simp only [drain, hw]
      exact ⟨e, rfl⟩

end AppendFile

-- A `BufWriter`: what it has accepted and not yet written, and how much of that it can hold.
structure BufWriter (α : Type) where
  inner    : AppendFile α
  buf      : List α := []
  capacity : ℕ := 8 * 1024
  deriving DecidableEq, Repr

namespace BufWriter

variable {dev : Device ε} {w w' : BufWriter α} {buf : List α} {r : Except ε Unit}

def spareCapacity (w : BufWriter α) : ℕ :=
  w.capacity - w.buf.length

def push (w : BufWriter α) (buf : List α) : BufWriter α :=
  { w with buf := w.buf ++ buf }

def flushBuf (dev : Device ε) (w : BufWriter α) : BufWriter α × Except ε Unit :=
  let (inner, rest, r) := w.inner.drain dev w.buf.length w.buf
  ({ w with inner, buf := rest }, r)

def makeRoom (dev : Device ε) (w : BufWriter α) (len : ℕ) : BufWriter α × Except ε Unit :=
  if w.spareCapacity < len then w.flushBuf dev else (w, .ok ())

-- What does not fit into the buffer goes to the file directly, after what is in the buffer.
def writeAllCold (dev : Device ε) (w : BufWriter α) (buf : List α) : BufWriter α × Except ε Unit :=
  match w.makeRoom dev buf.length with
  | (w, .error e) => (w, .error e)
  | (w, .ok ())   =>
    if w.capacity ≤ buf.length then
      let (inner, _, r) := w.inner.drain dev buf.length buf
      ({ w with inner }, r)
    else
      (w.push buf, .ok ())

def writeAll (dev : Device ε) (w : BufWriter α) (buf : List α) : BufWriter α × Except ε Unit :=
  if buf.length < w.spareCapacity then (w.push buf, .ok ()) else w.writeAllCold dev buf

def flush (dev : Device ε) (w : BufWriter α) : BufWriter α × Except ε Unit :=
  match w.flushBuf dev with
  | (w, .error e) => (w, .error e)
  | (w, .ok ())   =>
    let (inner, r) := w.inner.flush dev
    ({ w with inner }, r)

-- What is in the file and what is still to be written to it.
def accepted (w : BufWriter α) : List α :=
  w.inner.bytes ++ w.buf

theorem flushBuf_spec (h : w.flushBuf dev = (w', r)) : w'.accepted = w.accepted ∧ w'.capacity = w.capacity ∧
    w.inner.bytes.length ≤ w'.inner.bytes.length ∧
      (r = .ok () → w'.buf = [] ∧ w'.inner.failures = w.inner.failures) := by
  generalize hd : w.inner.drain dev w.buf.length w.buf = out at h
  obtain ⟨inner, rest, r'⟩ := out
  simp only [flushBuf, hd] at h
  cases h
  have ⟨⟨sent, hs, hb⟩, ho⟩ := AppendFile.drain_drained (Nat.le_refl _) hd
  refine ⟨?_, rfl, AppendFile.length_le_of_drain (Nat.le_refl _) hd, ho⟩
  rw [accepted, accepted, hb, List.append_assoc, ← hs]

theorem makeRoom_spec {len : ℕ} (h : w.makeRoom dev len = (w', r)) :
    w'.accepted = w.accepted ∧ w'.capacity = w.capacity ∧ w.inner.bytes.length ≤ w'.inner.bytes.length ∧
      (r = .ok () → w'.inner.failures = w.inner.failures ∧ (w'.buf = [] ∨ len ≤ w'.spareCapacity)) := by
  rw [makeRoom] at h
  split at h
  case isTrue =>
    have ⟨ha, hc, hl, ho⟩ := flushBuf_spec h
    exact ⟨ha, hc, hl, fun hr => ⟨(ho hr).2, .inl (ho hr).1⟩⟩
  case isFalse hn =>
    cases h
    exact ⟨rfl, rfl, Nat.le_refl _, fun _ => ⟨rfl, .inr (Nat.not_lt.mp hn)⟩⟩

theorem accepted_push : (w.push buf).accepted = w.accepted ++ buf := by
  rw [push, accepted, accepted, List.append_assoc]

-- A write that succeeds has accepted all of its bytes, after the ones before them.
theorem writeAllCold_ok (h : w.writeAllCold dev buf = (w', .ok ())) :
    w'.accepted = w.accepted ++ buf ∧ w'.inner.failures = w.inner.failures := by
  generalize hr : w.makeRoom dev buf.length = out at h
  obtain ⟨room, r⟩ := out
  have ⟨ha, _, _, ho⟩ := makeRoom_spec hr
  cases r with
  | error e => simp [writeAllCold, hr] at h
  | ok u =>
    have ⟨hf, hb⟩ := ho rfl
    simp only [writeAllCold, hr] at h
    split at h
    case isFalse =>
      cases h
      exact ⟨accepted_push.trans (by rw [ha]), hf⟩
    case isTrue hle =>
      generalize hd : room.inner.drain dev buf.length buf = out at h
      obtain ⟨inner, rest, r⟩ := out
      cases h
      have hdr := AppendFile.drain_drained (Nat.le_refl _) hd
      have ⟨sent, hs, hbytes⟩ := hdr.written
      have ⟨hrest, hff⟩ := hdr.ok rfl
      rw [hrest, List.append_nil] at hs
      refine ⟨?_, hff.trans hf⟩
      -- With something left in the buffer, there is nothing to write.
      have he : room.buf = [] ∨ buf = [] := by
        rcases hb with hb | hl
        · exact .inl hb
        · rw [spareCapacity] at hl
          rw [← List.length_eq_zero_iff, ← List.length_eq_zero_iff]
          omega
      rw [← ha, accepted, accepted, hbytes, ← hs]
      rcases he with he | he <;> simp [he]

theorem writeAll_ok (h : w.writeAll dev buf = (w', .ok ())) :
    w'.accepted = w.accepted ++ buf ∧ w'.inner.failures = w.inner.failures := by
  rw [writeAll] at h
  split at h
  case isTrue =>
    cases h
    exact ⟨accepted_push, rfl⟩
  case isFalse => exact writeAllCold_ok h

theorem flush_ok (h : w.flush dev = (w', .ok ())) :
    w'.buf = [] ∧ w'.accepted = w.accepted ∧ w'.inner.failures = w.inner.failures := by
  generalize hf : w.flushBuf dev = out at h
  obtain ⟨w₁, r⟩ := out
  have ⟨ha, _, _, ho⟩ := flushBuf_spec hf
  cases r with
  | error e => simp [flush, hf] at h
  | ok u =>
    have ⟨hb, hff⟩ := ho rfl
    simp only [flush, hf, AppendFile.flush] at h
    cases hd : dev.flush w₁.inner.calls with
    | error e => simp [hd] at h
    | ok u =>
      simp only [hd] at h
      cases h
      refine ⟨hb, ?_, hff⟩
      rw [← ha, accepted, accepted, AppendFile.append, List.append_nil]

-- A write that fits into the buffer has nothing to do with the file.
def Fits (w : BufWriter α) (len : ℕ) : Prop :=
  w.buf.length + len ≤ w.capacity ∧ len < w.capacity

instance (w : BufWriter α) (len : ℕ) : Decidable (w.Fits len) :=
  inferInstanceAs (Decidable (_ ∧ _))

theorem writeAll_of_fits (h : w.Fits buf.length) : w.writeAll dev buf = (w.push buf, .ok ()) := by
  have ⟨hle, hlt⟩ := h
  rw [writeAll]
  split
  case isTrue => rfl
  case isFalse =>
    have hr : w.makeRoom dev buf.length = (w, .ok ()) := if_neg (by rw [spareCapacity]; omega)
    simp only [writeAllCold, hr, if_neg (Nat.not_le.mpr hlt)]

-- The length of the write that another one leads to: first of all, what is in the buffer is written.
def attempt (w : BufWriter α) (len : ℕ) : ℕ :=
  if w.buf = [] then len else w.buf.length

theorem length_makeRoom_le (h : w.writeAllCold dev buf = (w', r)) :
    (w.makeRoom dev buf.length).1.inner.bytes.length ≤ w'.inner.bytes.length := by
  rw [writeAllCold] at h
  split at h
  case h_1 hr =>
    cases h
    simp [hr]
  case h_2 room _ hr =>
    rw [hr]
    split at h
    case isTrue =>
      cases h
      exact AppendFile.length_le_of_drain (Nat.le_refl _) rfl
    case isFalse =>
      cases h
      exact Nat.le_refl _

theorem length_le_of_writeAll (h : w.writeAll dev buf = (w', r)) :
    w.inner.bytes.length ≤ w'.inner.bytes.length := by
  rw [writeAll] at h
  split at h
  case isTrue =>
    cases h
    exact Nat.le_refl _
  case isFalse => exact Nat.le_trans (makeRoom_spec rfl).2.2.1 (length_makeRoom_le h)

theorem capacity_of_writeAll (h : w.writeAll dev buf = (w', r)) : w'.capacity = w.capacity := by
  rw [writeAll] at h
  split at h
  case isTrue =>
    cases h
    rfl
  case isFalse =>
    rw [writeAllCold] at h
    split at h
    case h_1 hr =>
      cases h
      exact (makeRoom_spec hr).2.1
    case h_2 hr =>
      split at h
      case isTrue =>
        cases h
        exact (makeRoom_spec hr).2.1
      case isFalse =>
        cases h
        exact (makeRoom_spec hr).2.1

theorem capacity_of_flush (h : w.flush dev = (w', r)) : w'.capacity = w.capacity := by
  rw [flush] at h
  split at h
  case h_1 hf =>
    cases h
    exact (flushBuf_spec hf).2.1
  case h_2 hf =>
    cases h
    exact (flushBuf_spec hf).2.1

section

variable (hn : ¬w.Fits buf.length)

include hn

theorem writeAll_eq_cold : w.writeAll dev buf = w.writeAllCold dev buf := by
  refine if_neg fun hlt => hn ⟨?_, ?_⟩ <;> rw [spareCapacity] at hlt <;> omega

-- With nothing in the buffer, the write goes to the file as it is.
theorem writeAll_of_empty (hb : w.buf = []) : w.writeAll dev buf =
    ({ w with inner := (w.inner.drain dev buf.length buf).1 }, (w.inner.drain dev buf.length buf).2.2) := by
  have hc : w.capacity ≤ buf.length := by
    rw [Fits, hb, List.length_nil] at hn
    omega
  have hf : w.flushBuf dev = (w, .ok ()) := by
    obtain ⟨inner, _, _⟩ := w
    cases hb
    rfl
  have hr : w.makeRoom dev buf.length = (w, .ok ()) := by
    rw [makeRoom, hf]
    split <;> rfl
  simp only [writeAll_eq_cold hn, writeAllCold, hr, if_pos hc]

-- Otherwise what is in the buffer has to go first.
theorem makeRoom_of_nonempty (hb : w.buf ≠ []) (h₀ : buf ≠ []) :
    w.makeRoom dev buf.length = w.flushBuf dev := by
  have hu := List.length_pos_iff.mpr hb
  have hp := List.length_pos_iff.mpr h₀
  refine if_pos ?_
  rw [Fits] at hn
  rw [spareCapacity]
  omega

variable (h₀ : buf ≠ [])

include h₀

theorem length_lt_of_writeAll (ht : dev.Transfers w.inner.calls (w.attempt buf.length))
    (h : w.writeAll dev buf = (w', r)) : w.inner.bytes.length < w'.inner.bytes.length := by
  by_cases hb : w.buf = []
  case pos =>
    rw [attempt, if_pos hb] at ht
    rw [writeAll_of_empty hn hb] at h
    cases h
    exact AppendFile.length_lt_of_drain h₀ (Nat.le_refl _) ht rfl
  case neg =>
    rw [attempt, if_neg hb] at ht
    have hlt : w.inner.bytes.length < (w.flushBuf dev).1.inner.bytes.length :=
      AppendFile.length_lt_of_drain hb (Nat.le_refl _) ht rfl
    rw [writeAll_eq_cold hn] at h
    have hle := length_makeRoom_le h
    rw [makeRoom_of_nonempty hn hb h₀] at hle
    exact Nat.lt_of_lt_of_le hlt hle

theorem writeAll_of_not_transfers (ht : ¬dev.Transfers w.inner.calls (w.attempt buf.length)) :
    ∃ e w', w.writeAll dev buf = (w', .error e) ∧ w'.inner.bytes = w.inner.bytes := by
  by_cases hb : w.buf = []
  case pos =>
    rw [attempt, if_pos hb] at ht
    have ⟨e, hd⟩ := AppendFile.drain_of_not_transfers h₀ (Nat.le_refl _) ht
    refine ⟨e, { w with inner := w.inner.fail }, ?_, rfl⟩
    rw [writeAll_of_empty hn hb, hd]
  case neg =>
    rw [attempt, if_neg hb] at ht
    have ⟨e, hd⟩ := AppendFile.drain_of_not_transfers hb (Nat.le_refl _) ht
    refine ⟨e, { w with inner := w.inner.fail }, ?_, rfl⟩
    simp only [writeAll_eq_cold hn, writeAllCold, makeRoom_of_nonempty hn hb h₀, flushBuf, hd]

end

-- The length of the first write to the file that writes of these lengths lead to, if there is one.
def firstWrite (capacity : ℕ) : (used : ℕ) → List ℕ → Option ℕ
  | _, []          => none
  | used, n :: ns =>
    if used + n ≤ capacity ∧ n < capacity then firstWrite capacity (used + n) ns
    else some (if used = 0 then n else used)

section

variable {capacity used n : ℕ} {ns : List ℕ}

theorem firstWrite_of_fits (h : used + n ≤ capacity ∧ n < capacity) :
    firstWrite capacity used (n :: ns) = firstWrite capacity (used + n) ns :=
  if_pos h

theorem firstWrite_of_not_fits (h : ¬(used + n ≤ capacity ∧ n < capacity)) :
    firstWrite capacity used (n :: ns) = some (if used = 0 then n else used) :=
  if_neg h

theorem firstWrite_eq_attempt {w : BufWriter α} (h : ¬w.Fits n) :
    firstWrite w.capacity w.buf.length (n :: ns) = some (w.attempt n) := by
  simp only [firstWrite_of_not_fits h, attempt, List.length_eq_zero_iff]

theorem firstWrite_append {len : ℕ} (h : firstWrite capacity used ns = some len) (ms : List ℕ) :
    firstWrite capacity used (ns ++ ms) = some len := by
  induction ns generalizing used with
  | nil => cases h
  | cons n ns hi =>
    rw [List.cons_append]
    by_cases hf : used + n ≤ capacity ∧ n < capacity
    case pos =>
      rw [firstWrite_of_fits hf] at h ⊢
      exact hi h
    case neg => rwa [firstWrite_of_not_fits hf] at h ⊢

-- The file is not written to if all of it fits at once, with a byte to spare for each on its own.
theorem firstWrite_eq_none_iff (hu : used ≤ capacity) :
    firstWrite capacity used ns = none ↔ used + ns.sum ≤ capacity ∧ ∀ n ∈ ns, n < capacity := by
  induction ns generalizing used with
  | nil => simpa [firstWrite] using hu
  | cons n ns hi =>
    rw [List.sum_cons, ← Nat.add_assoc, List.forall_mem_cons]
    by_cases hf : used + n ≤ capacity ∧ n < capacity
    case pos => rw [firstWrite_of_fits hf, hi hf.1, and_iff_right hf.2]
    case neg =>
      rw [firstWrite_of_not_fits hf]
      refine ⟨nofun, fun ⟨hs, hn, _⟩ => absurd ⟨?_, hn⟩ hf⟩
      exact Nat.le_trans (Nat.le_add_right ..) hs

end

end BufWriter
end Rust
