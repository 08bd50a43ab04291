import Latent.Source.Vdisk.Disk

open Rust

namespace Latent

namespace Source

variable [OverflowChecks] {s : Source} {offset len : ℕ} {bytes : Bytes}

theorem length_of_go_eq_ok {fuel rest : ℕ} (h : readExactAt.go s len fuel offset rest = .ok bytes) :
    bytes.length = rest := by
  induction fuel generalizing offset rest bytes with
  | zero =>
    cases rest <;> simp only [readExactAt.go] at h <;> cases h
    rfl
  | succ fuel hi =>
    cases rest
    case zero =>
      simp only [readExactAt.go] at h
      cases h
      rfl
    case succ rest =>
      simp only [readExactAt.go, Exec.bind_eq_ok] at h
      obtain ⟨front, _, h⟩ := h
      split at h
      case isTrue => cases h
      case isFalse =>
        split at h
        case isTrue => cases h
        case isFalse hle =>
          simp only [Exec.bind_eq_ok] at h
          obtain ⟨_, _, tail, ht, h⟩ := h
          cases h
          rw [List.length_append, hi ht]
          omega

-- What `read_exact_at` returns without an error fills its buffer, whatever the source does.
theorem length_of_readExactAt (h : s.readExactAt offset len = .ok bytes) : bytes.length = len :=
  length_of_go_eq_ok h

end Source

namespace Vdisk

section

variable [OverflowChecks]

-- The read loop as it fills the caller's buffer: each span is written through `&mut buf[done..stop]`.
def readInto (inner : Source) (virtualSize unit : ℕ)
    (locate : ℕ → Exec SourceError (Option ℕ)) (hostAt : ℕ → ℕ → Exec SourceError ℕ)
    (offset : ℕ) (buf : Bytes) : Exec SourceError (Bytes × ℕ) :=
  if virtualSize < offset then
    .err <| .outOfRange offset virtualSize
  else do
    let n := min buf.length (← U64.sub virtualSize offset)
    go n n 0 buf
where
  -- The fuel is the one of `readSpans`.
  go (n : ℕ) : (fuel done : ℕ) → Bytes → Exec SourceError (Bytes × ℕ)
    | 0, done, buf        => if done < n then .panic else .ok (buf, n)
    | fuel + 1, done, buf =>
      if done < n then do
        let addr ← U64.add offset done
        let within ← U64.rem addr unit
        let take := min (← U64.sub unit within) (← U64.sub n done)
        let stop ← U64.add done take
        let dst ← slice buf done stop
        let index ← U64.div addr unit
        let filled ← fillSpan inner hostAt within dst.length (← locate index)
        go n fuel stop (put buf done filled)
      else
        .ok (buf, n)

variable {inner : Source} {virtualSize unit offset : ℕ}
  {locate : ℕ → Exec SourceError (Option ℕ)} {hostAt : ℕ → ℕ → Exec SourceError ℕ}

theorem length_of_fillSpan {within take : ℕ} {host : Option ℕ} {bytes : Bytes}
    (h : fillSpan inner hostAt within take host = .ok bytes) : bytes.length = take := by
  cases host with
  | none =>
    simp only [fillSpan] at h
    cases h
    exact List.length_replicate
  | some host =>
    simp only [fillSpan, Exec.bind_eq_ok] at h
    obtain ⟨_, _, h⟩ := h
    exact Source.length_of_readExactAt h

omit [OverflowChecks] in
theorem put_nil (buf : Bytes) (pos : ℕ) : put buf pos [] = buf := by
  simp [put]

omit [OverflowChecks] in
-- Writing two spans that lie next to each other is writing both at once.
theorem put_put (buf l₁ l₂ : Bytes) {pos : ℕ} (h : pos + (l₁.length + l₂.length) ≤ buf.length) :
    put (put buf pos l₁) (pos + l₁.length) l₂ = put buf pos (l₁ ++ l₂) := by
  apply List.ext_getElem?
  intro i
  simp only [put, List.getElem?_append, List.length_take, List.length_append, List.length_drop,
    List.getElem?_take, List.getElem?_drop]
  grind

theorem length_of_readSpans_go {n fuel done : ℕ} {bytes : Bytes}
    (h : readSpans.go inner unit locate hostAt offset n fuel done = .ok bytes) (hd : done ≤ n) :
    bytes.length = n - done := by
  induction fuel generalizing done bytes with
  | zero =>
    rw [readSpans.go] at h
    split at h <;> cases h
    rw [List.length_nil]
    omega
  | succ fuel hi =>
    rw [readSpans.go] at h
    split at h
    case isFalse =>
      cases h
      rw [List.length_nil]
      omega
    case isTrue =>
      simp only [Exec.bind_eq_ok] at h
      obtain ⟨_, _, _, _, left, _, _, _, _, _, dst, hdst, rest, hrest, h⟩ := h
      cases h
      rw [List.length_append, length_of_fillSpan hdst, hi hrest (by omega)]
      omega

-- The loop on the buffer is the loop that returns the bytes, with each write in its place: no slice
-- of the buffer is out of range.
theorem readInto_go_eq {n fuel done : ℕ} {buf : Bytes} (hn : n < 2 ^ 64) (hb : n ≤ buf.length)
    (hd : done ≤ n) :
    readInto.go inner unit locate hostAt offset n fuel done buf = (do
      let bytes ← readSpans.go inner unit locate hostAt offset n fuel done
      .ok (put buf done bytes, n)) := by
  induction fuel generalizing done buf with
  | zero =>
    simp only [readInto.go, readSpans.go]
    split
    case isTrue  => rfl
    case isFalse => rw [Exec.ok_bind, put_nil]
  | succ fuel hi =>
    simp only [readInto.go, readSpans.go]
    split
    case isFalse => rw [Exec.ok_bind, put_nil]
    case isTrue hlt =>
      simp only [bind_assoc, U64.sub_eq (Nat.le_of_lt hlt), Exec.ok_bind]
      congr 1; funext addr
      congr 1; funext within
      congr 1; funext left
      have hstop : done + min left (n - done) ≤ n := by omega
      rw [U64.add_eq (by omega), Exec.ok_bind, slice_eq (by omega) (by omega), Exec.ok_bind,
        Nat.add_sub_cancel_left, length_subslice_of_le (by omega)]
      congr 1; funext index
      congr 1; funext host
      cases hf : fillSpan inner hostAt within (min left (n - done)) host with
      | err e => rfl
      | panic => rfl
      | ok dst =>
        have hl := length_of_fillSpan hf
        simp only [Exec.ok_bind]
        rw [hi (by rw [length_put (by omega)]; exact hb) hstop]
        cases hr : readSpans.go inner unit locate hostAt offset n fuel (done + min left (n - done)) with
        | err e   => rfl
        | panic   => rfl
        | ok rest =>
          have hlr := length_of_readSpans_go hr hstop
          simp only [Exec.ok_bind]
          rw [← put_put buf dst rest (by omega), hl]

theorem readInto_eq (buf : Bytes) (hv : virtualSize < 2 ^ 64) :
    readInto inner virtualSize unit locate hostAt offset buf = (do
      let bytes ← readSpans inner virtualSize unit locate hostAt offset buf.length
      .ok (put buf 0 bytes, min buf.length (virtualSize - offset))) := by
  rw [readInto, readSpans]
  split
  case isTrue => rfl
  case isFalse ho =>
    rw [U64.sub_eq (by omega), Exec.ok_bind]
    exact readInto_go_eq (by omega) (by omega) (Nat.zero_le _)

end

end Vdisk

namespace Disk

variable [OverflowChecks] {d : Disk}

-- `Source::read_at` of the three formats, on the caller's buffer.
def readInto : Disk → (offset : ℕ) → Bytes → Exec SourceError (Bytes × ℕ)
  | qcow2 s => Vdisk.readInto s.inner s.virtualSize.toNat s.clusterSize s.locate U64.add
  | vmdk s  => Vdisk.readInto s.inner s.virtualSize s.grainBytes s.locate U64.add
  | vhdx s  => Vdisk.readInto s.inner s.virtualSize.toNat s.blockSize s.locate
      fun host within => .ok (U64.saturatingAdd host within)

omit [OverflowChecks] in
theorem virtualSize_lt (d : Disk) : d.virtualSize < 2 ^ 64 := by
  cases d with
  | qcow2 s => exact s.virtualSize.toNat_lt
  | vmdk s  => exact s.virtualSize_lt
  | vhdx s  => exact s.virtualSize.toNat_lt

theorem readInto_eq (d : Disk) (offset : ℕ) (buf : Bytes) :
    d.readInto offset buf = (do
      let bytes ← d.readAt offset buf.length
      .ok (put buf 0 bytes, min buf.length (d.virtualSize - offset))) := by
  have hv := d.virtualSize_lt
  cases d with
  | qcow2 s => exact Vdisk.readInto_eq buf hv
  | vmdk s  => exact Vdisk.readInto_eq buf hv
  | vhdx s  => exact Vdisk.readInto_eq buf hv

end Disk
end Latent
