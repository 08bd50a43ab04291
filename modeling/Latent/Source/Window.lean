import Latent.Source.Raw

open Rust

namespace Latent

-- A part of a source that is a source itself. It cannot reach past the end of the other one.
structure Window where
  inner    : Source
  offset   : ℕ
  len      : ℕ
  identity : Identity
  within   : offset + len ≤ inner.size

namespace Window

variable {inner : Source} {content : Bytes} {offset : ℕ} {len : Option ℕ} {w : Window}

def range (inner : Source) (offset : ℕ) (len : Option ℕ) : Exec SourceError Window :=
  let total := inner.size
  if h : total < offset then
    .err <| .outOfRange offset total
  else
    let available := total - offset
    .ok {
      inner, offset
      len      := min (len.getD available) available
      identity := inner.identity
      within   := by omega
    }

-- How much of a window of some size is left over by what comes before the offset.
def clamped (size offset : ℕ) (len : Option ℕ) : ℕ :=
  min (len.getD (size - offset)) (size - offset)

theorem range_err (h : inner.size < offset) : range inner offset len = .err (.outOfRange offset inner.size) :=
  dif_pos h

theorem range_ok (len : Option ℕ) (h : offset ≤ inner.size) : ∃ w, range inner offset len = .ok w ∧
    w.inner = inner ∧ w.offset = offset ∧ w.len = clamped inner.size offset len ∧ w.identity = inner.identity :=
  ⟨_, dif_neg (Nat.not_lt.mpr h), rfl, rfl, rfl, rfl⟩

theorem range_eq_ok_iff : (∃ w, range inner offset len = .ok w) ↔ offset ≤ inner.size := by
  constructor
  case mp =>
    intro ⟨w, hw⟩
    by_contra h
    rw [range_err (Nat.lt_of_not_le h)] at hw
    cases hw
  case mpr =>
    intro h
    have ⟨w, hw, _⟩ := range_ok len h
    exact ⟨w, hw⟩

section

variable [OverflowChecks]

def readAt (w : Window) (offset len : ℕ) : Exec SourceError Bytes := do
  if w.len < offset then
    .err <| .outOfRange offset w.len
  else
    let n := min len (← U64.sub w.len offset)
    if n = 0 then
      .ok []
    else
      w.inner.readAt (← U64.add w.offset offset) n

def toSource (w : Window) : Source where
  size     := w.len
  identity := w.identity
  readAt   := w.readAt

theorem readAt_outOfRange {o : ℕ} (n : ℕ) (h : w.len < o) : w.readAt o n = .err (.outOfRange o w.len) :=
  if_pos h

-- A read through the window is one of the source at the shifted offset, cut off at the window's end.
-- The shifted offset is always a `u64` value.
theorem readAt_eq {o : ℕ} (n : ℕ) (hs : w.inner.size < 2 ^ 64) (h : o ≤ w.len) :
    w.readAt o n =
      if min n (w.len - o) = 0 then .ok [] else w.inner.readAt (w.offset + o) (min n (w.len - o)) := by
  have hw := w.within
  have ha : (U64.add w.offset o : Exec SourceError ℕ) = .ok (w.offset + o) := U64.add_eq (by omega)
  simp only [readAt, if_neg (Nat.not_lt.mpr h), U64.sub_eq h, Exec.ok_bind, ha]

theorem conforming (hc : w.inner.Conforming content) :
    w.toSource.Conforming (subslice content w.offset w.len) := by
  have hw := w.within
  have hs : w.inner.size < 2 ^ 64 := hc.size_eq ▸ hc.size_lt
  rw [hc.size_eq] at hw
  have hl : (subslice content w.offset w.len).length = w.len := length_subslice_of_le hw
  constructor
  case size_eq => exact hl.symm
  case size_lt =>
    have := hc.size_lt
    omega
  case outOfRange =>
    intro o n h
    rw [hl] at h ⊢
    exact readAt_outOfRange n h
  case inRange =>
    intro o n h
    rw [hl] at h ⊢
    have hr : w.toSource.readAt o n = _ := readAt_eq n hs h
    by_cases hn : min n (w.len - o) = 0
    case pos => exact ⟨0, by rw [hr, if_pos hn, subslice_len_zero], by omega, by omega⟩
    case neg =>
      have ho : w.offset + o ≤ content.length := by omega
      have ⟨k, hk, hle, hp⟩ := hc.inRange (min n (w.len - o)) ho
      refine ⟨k, ?_, by omega, by omega⟩
      rw [hr, if_neg hn, hk, subslice_subslice (by omega)]

-- What makes a window exactly this part of a source, however the reads of the source come out.
structure Slices (w : Window) (source : Source) (offset len : ℕ) : Prop where
  size_eq    : w.toSource.size = len
  identity   : w.toSource.identity = source.identity
  outOfRange : ∀ o n, len < o → w.toSource.readAt o n = .err (.outOfRange o len)
  readAt     : ∀ o n, o ≤ len → w.toSource.readAt o n =
    if min n (len - o) = 0 then .ok [] else source.readAt (offset + o) (min n (len - o))
  conforming : ∀ content, source.Conforming content → w.toSource.Conforming (subslice content offset len)

theorem range_slices (hs : inner.size < 2 ^ 64) (h : offset ≤ inner.size) (len : Option ℕ) :
    ∃ w, range inner offset len = .ok w ∧ w.Slices inner offset (clamped inner.size offset len) := by
  have ⟨w, hw, hi, ho, hl, hd⟩ := range_ok len h
  refine ⟨w, hw, ?_⟩
  rw [← hi, ← ho]
  rw [← hi, ← ho] at hl
  rw [← hi] at hs hd
  rw [← hl]
  exact {
    size_eq    := rfl
    identity   := hd
    outOfRange := fun _ n h => readAt_outOfRange n h
    readAt     := fun _ n h => readAt_eq n hs h
    conforming := fun _ hc => conforming hc
  }

-- Two windows over each other give what one window over the source gives.
theorem toSource_eq {nested single : Window} (hs : w.inner.size < 2 ^ 64) (hn : nested.inner = w.toSource)
    (hi : single.inner = w.inner) (ho : single.offset = w.offset + nested.offset)
    (hl : single.len = nested.len) (hd : single.identity = nested.identity) :
    nested.toSource = single.toSource := by
  have hw := w.within
  have hwn : nested.offset + nested.len ≤ w.len := by
    have := nested.within
    rwa [hn] at this
  have hr : nested.readAt = single.readAt := by
    funext o n
    by_cases h : nested.len < o
    case pos => rw [readAt_outOfRange n h, readAt_outOfRange n (hl ▸ h), hl]
    case neg =>
      have h := Nat.not_lt.mp h
      have hsn : nested.inner.size < 2 ^ 64 := by
        rw [hn]
        exact Nat.lt_of_le_of_lt (Nat.le_of_add_left_le hw) hs
      rw [readAt_eq n hsn h, readAt_eq n (hi ▸ hs) (hl ▸ h), hl, hn, hi, ho]
      by_cases hm : min n (nested.len - o) = 0
      case pos => rw [if_pos hm, if_pos hm]
      case neg =>
        have hk : min (min n (nested.len - o)) (w.len - (nested.offset + o)) = min n (nested.len - o) := by
          omega
        have hq : w.toSource.readAt (nested.offset + o) (min n (nested.len - o)) = _ :=
          readAt_eq _ hs (show nested.offset + o ≤ w.len by omega)
        rw [if_neg hm, if_neg hm, hq, hk, if_neg hm, Nat.add_assoc]
  simp only [toSource, hr, hl, hd]

-- A window of a window is the one window at the summed offset, with the length clamped to both.
theorem range_range {b : ℕ} (hs : inner.size < 2 ^ 64) (hw : range inner offset len = .ok w)
    (hb : b ≤ w.len) (len' : Option ℕ) :
    ∃ nested single, range w.toSource b len' = .ok nested ∧
      range inner (offset + b) (some (clamped w.len b len')) = .ok single ∧
        nested.toSource = single.toSource := by
  have ho : offset ≤ inner.size := range_eq_ok_iff.mp ⟨w, hw⟩
  have ⟨w', hw', hi, hf, _, hd⟩ := range_ok len ho
  cases hw.symm.trans hw'
  have hwi := w.within
  rw [hi, hf] at hwi
  have ⟨nested, hn, hni, hnf, hnl, hnd⟩ := range_ok len' (show b ≤ w.toSource.size from hb)
  have ⟨single, hx, hxi, hxf, hxl, hxd⟩ :=
    range_ok (some (clamped w.len b len')) (show offset + b ≤ inner.size by omega)
  have hl : single.len = nested.len := by
    have hnl : nested.len = clamped w.len b len' := hnl
    rw [hxl, hnl]
    simp only [clamped, Option.getD_some]
    omega
  refine ⟨nested, single, hn, hx, toSource_eq (hi ▸ hs) hni (hxi.trans hi.symm) ?_ hl ?_⟩
  · rw [hxf, hf, hnf]
  · rw [hxd, hnd]
    exact hd.symm

end

end Window
end Latent
