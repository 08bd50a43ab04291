import Latent.Rust.BufWriter

namespace Rust

variable {ε α : Type}

namespace AppendFile

variable {dev : Device ε} {d d' : AppendFile α} {buf rest : List α} {fuel : ℕ} {r : Except ε Unit}

theorem failures_write {n : Except ε ℕ} (h : d.write dev buf = (d', n)) : d.failures ≤ d'.failures ∧
    (∀ e, n = .error e → d.failures < d'.failures) := by
  rw [write] at h
  split at h
  case h_1 =>
    cases h
    exact ⟨Nat.le_succ _, fun _ _ => Nat.lt_succ_self _⟩
  case h_2 =>
    cases h
    exact ⟨Nat.le_succ _, fun _ _ => Nat.lt_succ_self _⟩
  case h_3 =>
    cases h
    exact ⟨Nat.le_refl _, fun _ he => by cases he⟩

-- A call that fails is counted.
theorem failures_drain (hf : buf.length ≤ fuel) (h : drain dev fuel d buf = (d', rest, r)) :
    d.failures ≤ d'.failures ∧ ∀ e, r = .error e → d.failures < d'.failures := by
  induction fuel generalizing d buf with
  | zero =>
    rw [List.length_eq_zero_iff.mp (Nat.le_zero.mp hf)] at h
    cases h
    exact ⟨Nat.le_refl _, fun _ he => by cases he⟩
  | succ fuel hi =>
    cases buf with
    | nil =>
      cases h
      exact ⟨Nat.le_refl _, fun _ he => by cases he⟩
    | cons b buf =>
      cases hw : d.write dev (b :: buf) with
      | mk d₁ n =>
        obtain ⟨hle, hlt⟩ := failures_write hw
        cases n with
        | error e =>
          simp only [drain, hw] at h
          cases h
          exact ⟨hle, fun _ _ => hlt e rfl⟩
        | ok n =>
          by_cases ht : dev.Transfers d.calls (b :: buf).length
          case neg =>
            obtain ⟨e, he⟩ := write_of_not_transfers (d := d) ht
            cases he.symm.trans hw
          case pos =>
            obtain ⟨m, h₀, _, he⟩ := write_of_transfers (d := d) ht (by simp)
            cases he.symm.trans hw
            simp only [drain, hw] at h
            have hl : ((b :: buf).drop n).length ≤ fuel := by
              rw [List.length_drop]
              omega
            obtain ⟨hle', hlt'⟩ := hi hl h
            exact ⟨Nat.le_trans hle hle', fun e he => Nat.lt_of_le_of_lt hle (hlt' e he)⟩

theorem flush_spec (dev : Device ε) (d : AppendFile α) :
    (d.flush dev).1.bytes = d.bytes ∧ d.failures ≤ (d.flush dev).1.failures := by
  rw [flush]
  cases dev.flush d.calls with
  | error e => exact ⟨rfl, Nat.le_succ _⟩
  | ok u    => exact ⟨List.append_nil _, Nat.le_refl _⟩

end AppendFile

namespace BufWriter

variable {dev : Device ε} {w w' w'' : BufWriter α} {buf p q : List α} {r : Except ε Unit}

-- One writer is what has become of another one that has accepted some more bytes since: nothing that
-- was in the file is gone, and not more is pending than the buffer holds.
structure Extends (w w' : BufWriter α) (p : List α) : Prop where
  accepted : w'.accepted = w.accepted ++ p
  bytes    : w.inner.bytes <+: w'.inner.bytes
  capacity : w'.capacity = w.capacity
  pending  : w.buf.length ≤ w.capacity → w'.buf.length ≤ w'.capacity
  failures : w.inner.failures ≤ w'.inner.failures

namespace Extends

theorem refl (w : BufWriter α) : w.Extends w [] where
  accepted := (List.append_nil _).symm
  bytes    := List.prefix_rfl
  capacity := rfl
  pending  := id
  failures := Nat.le_refl _

theorem trans (h₁ : w.Extends w' p) (h₂ : w'.Extends w'' q) : w.Extends w'' (p ++ q) where
  accepted := by rw [h₂.accepted, h₁.accepted, List.append_assoc]
  bytes    := h₁.bytes.trans h₂.bytes
  capacity := h₂.capacity.trans h₁.capacity
  pending  := fun h => h₂.pending (h₁.pending h)
  failures := Nat.le_trans h₁.failures h₂.failures

end Extends

theorem flushBuf_extends (h : w.flushBuf dev = (w', r)) :
    w.Extends w' [] ∧ ∀ e, r = .error e → w.inner.failures < w'.inner.failures := by
  generalize hd : w.inner.drain dev w.buf.length w.buf = out at h
  obtain ⟨inner, rest, r'⟩ := out
  obtain ⟨ha, hc, _, _⟩ := flushBuf_spec h
  simp only [flushBuf, hd] at h
  cases h
  obtain ⟨sent, hs, hb⟩ := (AppendFile.drain_drained (Nat.le_refl _) hd).written
  obtain ⟨hle, hlt⟩ := AppendFile.failures_drain (Nat.le_refl _) hd
  refine ⟨⟨by rw [ha, List.append_nil], ⟨sent, hb.symm⟩, hc, fun h => ?_, hle⟩, hlt⟩
  have hl := congrArg List.length hs
  rw [List.length_append] at hl
  dsimp only
  omega

theorem push_extends (h : w.buf.length ≤ w.capacity → w.buf.length + buf.length ≤ w.capacity) :
    w.Extends (w.push buf) buf where
  accepted := accepted_push
  bytes    := List.prefix_rfl
  capacity := rfl
  pending  := fun hu => by simpa [push] using h hu
  failures := Nat.le_refl _

theorem makeRoom_extends {len : ℕ} (h : w.makeRoom dev len = (w', r)) :
    w.Extends w' [] ∧ ∀ e, r = .error e → w.inner.failures < w'.inner.failures := by
  rw [makeRoom] at h
  split at h
  case isTrue  => exact flushBuf_extends h
  case isFalse =>
    cases h
    exact ⟨.refl w, fun _ he => by cases he⟩

-- What is written past an empty buffer.
theorem drain_extends {inner : AppendFile α} {rest : List α} (hb : w.buf = [] ∨ buf = [])
    (h : w.inner.drain dev buf.length buf = (inner, rest, r)) :
    ∃ p, p <+: buf ∧ w.Extends { w with inner } p ∧ (r = .ok () → p = buf) ∧
      ∀ e, r = .error e → w.inner.failures < inner.failures := by
  have hd := AppendFile.drain_drained (Nat.le_refl _) h
  obtain ⟨hle, hlt⟩ := AppendFile.failures_drain (Nat.le_refl _) h
  obtain ⟨sent, hs, hbytes⟩ := hd.written
  refine ⟨sent, ⟨rest, hs.symm⟩, ⟨?_, ⟨sent, hbytes.symm⟩, rfl, id, hle⟩, fun hr => ?_, hlt⟩
  · rw [accepted, accepted, hbytes]
    rcases hb with hb | hb
    · simp [hb]
    · rw [hb, eq_comm, List.append_eq_nil_iff] at hs
      simp [hs.1]
  · rw [(hd.ok hr).1, List.append_nil] at hs
    exact hs.symm

theorem writeAllCold_extends (h : w.writeAllCold dev buf = (w', r)) : ∃ p, p <+: buf ∧ w.Extends w' p ∧
    (r = .ok () → p = buf) ∧ ∀ e, r = .error e → w.inner.failures < w'.inner.failures := by
  rw [writeAllCold] at h
  split at h
  case h_1 _ room e hr =>
    cases h
    obtain ⟨he, hlt⟩ := makeRoom_extends hr
    exact ⟨[], List.nil_prefix, he, (fun h => by cases h), fun _ _ => hlt e rfl⟩
  case h_2 _ room hr =>
    obtain ⟨he, _⟩ := makeRoom_extends hr
    obtain ⟨_, hb⟩ := (makeRoom_spec hr).2.2.2 rfl
    split at h
    case isTrue hc =>
      cases h
      have hb : room.buf = [] ∨ buf = [] := by
        rcases hb with hb | hl
        · exact .inl hb
        · rw [spareCapacity] at hl
          rw [← List.length_eq_zero_iff, ← List.length_eq_zero_iff]
          omega
      obtain ⟨p, hp, he', ho, hlt⟩ := drain_extends hb (rfl : room.inner.drain dev buf.length buf = _)
      exact ⟨p, hp, by simpa using he.trans he', ho, fun e h => Nat.lt_of_le_of_lt he.failures (hlt e h)⟩
    case isFalse hc =>
      cases h
      have hfit : room.buf.length ≤ room.capacity → room.buf.length + buf.length ≤ room.capacity := by
        intro hu
        rcases hb with hb | hl
        · rw [hb, List.length_nil]
          omega
        · rw [spareCapacity] at hl
          omega
      exact ⟨buf, List.prefix_rfl, by simpa using he.trans (push_extends hfit), fun _ => rfl, fun _ he => by cases he⟩

-- Whatever a write comes to, the writer has accepted some of its bytes from the front. A write that
-- succeeds has accepted all of them, and one that does not is counted as a failure.
theorem writeAll_extends (h : w.writeAll dev buf = (w', r)) : ∃ p, p <+: buf ∧ w.Extends w' p ∧
    (r = .ok () → p = buf) ∧ ∀ e, r = .error e → w.inner.failures < w'.inner.failures := by
  rw [writeAll] at h
  split at h
  case isTrue hlt =>
    cases h
    rw [spareCapacity] at hlt
    exact ⟨buf, List.prefix_rfl, push_extends fun _ => by omega, fun _ => rfl, fun _ he => by cases he⟩
  case isFalse => exact writeAllCold_extends h

theorem flush_extends (h : w.flush dev = (w', r)) : w.Extends w' [] := by
  rw [flush] at h
  split at h
  case h_1 hf =>
    cases h
    exact (flushBuf_extends hf).1
  case h_2 _ flushed hf =>
    cases h
    obtain ⟨hb, hle⟩ := flushed.inner.flush_spec dev
    exact (flushBuf_extends hf).1.trans {
      accepted := (congrArg (· ++ flushed.buf) hb).trans (List.append_nil _).symm
      bytes    := ⟨[], (List.append_nil _).trans hb.symm⟩
      capacity := rfl
      pending  := id
      failures := hle
    }

end BufWriter
end Rust
