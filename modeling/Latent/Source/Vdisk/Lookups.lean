import Latent.Rust.Logged
import Latent.Source.Vdisk.Disk

open Rust

namespace Latent

namespace Vdisk

inductive Table
  | l1
  | l2
  | grainDirectory
  | grainTable
  | bat
  deriving DecidableEq, Repr

-- A mapping entry that a read consults: which table it takes it from, and at which index.
structure Lookup where
  table : Table
  index : ℕ
  deriving DecidableEq, Repr

section

variable [OverflowChecks]

-- The read loop with the log of the entries that `locate` consults.
def readSpansLogged (inner : Source) (virtualSize unit : ℕ)
    (locate : ℕ → Logged Lookup SourceError (Option ℕ)) (hostAt : ℕ → ℕ → Exec SourceError ℕ)
    (offset len : ℕ) : Logged Lookup SourceError Bytes :=
  if virtualSize < offset then
    .quiet <| .err <| .outOfRange offset virtualSize
  else
    let n := min len (virtualSize - offset)
    go n n 0
where
  go (n : ℕ) : (fuel done : ℕ) → Logged Lookup SourceError Bytes
    | 0, done        => .quiet <| if done < n then .panic else .ok []
    | fuel + 1, done =>
      if done < n then do
        let addr ← .quiet (U64.add offset done)
        let within ← .quiet (U64.rem addr unit)
        let left ← .quiet (U64.sub unit within)
        let take := min left (n - done)
        let index ← .quiet (U64.div addr unit)
        let host ← locate index
        let dst ← .quiet (fillSpan inner hostAt within take host)
        let rest ← go n fuel (done + take)
        return dst ++ rest
      else
        return []

variable {inner : Source} {virtualSize unit offset len : ℕ}
  {locate : ℕ → Logged Lookup SourceError (Option ℕ)} {hostAt : ℕ → ℕ → Exec SourceError ℕ} {w : Lookup}

theorem exec_readSpansLogged_go (n fuel done : ℕ) :
    (readSpansLogged.go inner unit locate hostAt offset n fuel done).exec =
      readSpans.go inner unit (fun i => (locate i).exec) hostAt offset n fuel done := by
  induction fuel generalizing done with
  | zero => rfl
  | succ fuel hi =>
    simp only [readSpansLogged.go, readSpans.go]
    split
    case isTrue  => simp only [Logged.exec_bind, Logged.exec_quiet, Logged.exec_pure, hi]
    case isFalse => rfl

-- The log changes nothing about what is read.
theorem exec_readSpansLogged :
    (readSpansLogged inner virtualSize unit locate hostAt offset len).exec =
      readSpans inner virtualSize unit (fun i => (locate i).exec) hostAt offset len := by
  rw [readSpansLogged, readSpans]
  split
  case isTrue  => rfl
  case isFalse => exact exec_readSpansLogged_go _ _ _

-- What a read consults, it consults to locate the unit of one of its positions.
theorem mem_log_readSpans_go (hunit : 0 < unit) {n : ℕ} (hn : offset + n < 2 ^ 64) {fuel done : ℕ}
    (h : w ∈ (readSpansLogged.go inner unit locate hostAt offset n fuel done).log) :
    ∃ x, offset ≤ x ∧ x < offset + n ∧ w ∈ (locate (x / unit)).log := by
  induction fuel generalizing done with
  | zero => cases h
  | succ fuel hi =>
    rw [readSpansLogged.go] at h
    split at h
    case isFalse => cases h
    case isTrue hlt =>
      have hm := Nat.mod_lt (offset + done) hunit
      rw [Logged.mem_log_ok_bind (U64.add_eq (by omega)), Logged.mem_log_ok_bind (U64.rem_eq hunit),
        Logged.mem_log_ok_bind (U64.sub_eq (Nat.le_of_lt hm)),
        Logged.mem_log_ok_bind (U64.div_eq hunit)] at h
      rcases Logged.mem_log_bind.mp h with h | ⟨host, _, h⟩
      · exact ⟨offset + done, by omega, by omega, h⟩
      · rcases Logged.mem_log_bind.mp h with h | ⟨dst, _, h⟩
        · cases h
        · rcases Logged.mem_log_bind.mp h with h | ⟨rest, _, h⟩
          · exact hi h
          · cases h

theorem mem_log_readSpans (hunit : 0 < unit) (hv : virtualSize < 2 ^ 64)
    (h : w ∈ (readSpansLogged inner virtualSize unit locate hostAt offset len).log) :
    ∃ x, offset ≤ x ∧ x < virtualSize ∧ w ∈ (locate (x / unit)).log := by
  rw [readSpansLogged] at h
  split at h
  case isTrue => cases h
  case isFalse ho =>
    have ⟨x, hle, hlt, hw⟩ := mem_log_readSpans_go hunit (by omega) h
    exact ⟨x, hle, by omega, hw⟩

-- A read of one byte consults all that it takes to locate the unit of that byte.
theorem mem_log_readSpans_one (hunit : 0 < unit) (hv : virtualSize < 2 ^ 64) (ho : offset < virtualSize)
    (h : w ∈ (locate (offset / unit)).log) :
    w ∈ (readSpansLogged inner virtualSize unit locate hostAt offset 1).log := by
  have hm := Nat.mod_lt offset hunit
  rw [readSpansLogged, if_neg (by omega), show min 1 (virtualSize - offset) = 1 by omega]
  simp only [readSpansLogged.go, if_pos Nat.one_pos]
  rw [Logged.mem_log_ok_bind (U64.add_eq (by omega)), Nat.add_zero,
    Logged.mem_log_ok_bind (U64.rem_eq hunit), Logged.mem_log_ok_bind (U64.sub_eq (Nat.le_of_lt hm)),
    Logged.mem_log_ok_bind (U64.div_eq hunit)]
  exact Logged.mem_log_bind.mpr (.inl h)

end

end Vdisk
open Vdisk

namespace Qcow2Source

variable [OverflowChecks] {s : Qcow2Source} {w : Lookup}

-- `locate` with the log of the entries that it consults.
def locateLogged (s : Qcow2Source) (cluster : ℕ) : Logged Lookup SourceError (Option ℕ) := do
  let l1Index ← .quiet (U64.div cluster s.l2Entries)
  if s.l1Size.toNat ≤ l1Index then
    return none
  let l1At := U64.saturatingAdd s.l1Offset.toNat (← .quiet (U64.mul l1Index 8))
  let l2Table := (← .noting ⟨.l1, l1Index⟩ (beU64 s.inner l1At)) &&& OFFSET_MASK
  if l2Table = 0 then
    return none
  let l2Index ← .quiet (U64.rem cluster s.l2Entries)
  let l2At := U64.saturatingAdd l2Table.toNat (← .quiet (U64.mul l2Index 8))
  let entry ← .noting ⟨.l2, l2Index⟩ (beU64 s.inner l2At)
  .quiet <| Exec.errIf (entry &&& L2_COMPRESSED ≠ 0) <|
    .unsupported s.identity.path "qcow2" "compressed clusters are not supported"
  let host := entry &&& OFFSET_MASK
  return if host ≠ 0 then some host.toNat else none

theorem exec_locateLogged (s : Qcow2Source) (cluster : ℕ) : (s.locateLogged cluster).exec = s.locate cluster := by
  simp only [locateLogged, locate, Logged.exec_bind, Logged.exec_quiet, Logged.exec_noting, apply_ite Logged.exec,
    Logged.exec_pure, Exec.pure_eq]

theorem mem_log_locate {cluster : ℕ} (h : w ∈ (s.locateLogged cluster).log) :
    (w.table = .l1 ∧ w.index < s.l1Size.toNat) ∨ (w.table = .l2 ∧ w.index < s.l2Entries) := by
  have hp := s.l2Entries_pos
  simp only [locateLogged] at h
  rw [Logged.mem_log_ok_bind (U64.div_eq hp)] at h
  split at h
  case isTrue => cases h
  case isFalse hlt =>
    obtain ⟨_, _, h⟩ := Logged.mem_log_quiet_bind.mp h
    rcases Logged.mem_log_noting_bind.mp h with rfl | ⟨entry, _, h⟩
    · exact .inl ⟨rfl, Nat.lt_of_not_le hlt⟩
    · split at h
      case isTrue => cases h
      case isFalse =>
        rw [Logged.mem_log_ok_bind (U64.rem_eq hp)] at h
        obtain ⟨_, _, h⟩ := Logged.mem_log_quiet_bind.mp h
        rcases Logged.mem_log_noting_bind.mp h with rfl | ⟨entry, _, h⟩
        · exact .inr ⟨rfl, Nat.mod_lt cluster hp⟩
        · obtain ⟨_, _, h⟩ := Logged.mem_log_quiet_bind.mp h
          cases h

end Qcow2Source

namespace VmdkSource

variable [OverflowChecks] {s : VmdkSource} {w : Lookup}

def locateLogged (s : VmdkSource) (grain : ℕ) : Logged Lookup SourceError (Option ℕ) := do
  let gdIndex ← .quiet (U64.div grain s.gtesPerGt.toNat)
  let gdeAt := U64.saturatingAdd (U64.saturatingMul s.gdOffset.toNat SECTOR) (← .quiet (U64.mul gdIndex 4))
  let gtSector ← .noting ⟨.grainDirectory, gdIndex⟩ (leU32 s.inner gdeAt)
  if gtSector = 0 then
    return none
  let gtIndex ← .quiet (U64.rem grain s.gtesPerGt.toNat)
  let gteAt := U64.saturatingAdd (U64.saturatingMul gtSector.toNat SECTOR) (← .quiet (U64.mul gtIndex 4))
  let grainSector ← .noting ⟨.grainTable, gtIndex⟩ (leU32 s.inner gteAt)
  if grainSector = 0 then
    return none
  return some (← .quiet (U64.mul grainSector.toNat SECTOR))

theorem exec_locateLogged (s : VmdkSource) (grain : ℕ) : (s.locateLogged grain).exec = s.locate grain := by
  simp only [locateLogged, locate, Logged.exec_bind, Logged.exec_quiet, Logged.exec_noting, apply_ite Logged.exec,
    Logged.exec_pure, Exec.pure_eq]

theorem mem_log_locate {grain : ℕ} (h : w ∈ (s.locateLogged grain).log) :
    (w.table = .grainDirectory ∧ w.index = grain / s.gtesPerGt.toNat) ∨
    (w.table = .grainTable ∧ w.index < s.gtesPerGt.toNat) := by
  have hp := s.gtesPerGt_pos
  simp only [locateLogged] at h
  rw [Logged.mem_log_ok_bind (U64.div_eq hp)] at h
  obtain ⟨_, _, h⟩ := Logged.mem_log_quiet_bind.mp h
  rcases Logged.mem_log_noting_bind.mp h with rfl | ⟨gtSector, _, h⟩
  · exact .inl ⟨rfl, rfl⟩
  · split at h
    case isTrue => cases h
    case isFalse =>
      rw [Logged.mem_log_ok_bind (U64.rem_eq hp)] at h
      obtain ⟨_, _, h⟩ := Logged.mem_log_quiet_bind.mp h
      rcases Logged.mem_log_noting_bind.mp h with rfl | ⟨grainSector, _, h⟩
      · exact .inr ⟨rfl, Nat.mod_lt grain hp⟩
      · split at h
        case isTrue  => cases h
        case isFalse =>
          obtain ⟨_, _, h⟩ := Logged.mem_log_quiet_bind.mp h
          cases h

end VmdkSource

namespace VhdxSource

variable [OverflowChecks] {s : VhdxSource} {w : Lookup}

def locateLogged (s : VhdxSource) (block : ℕ) : Logged Lookup SourceError (Option ℕ) := do
  let batIndex ← .quiet (U64.add block (← .quiet (U64.div block s.chunkRatio)))
  let addr := U64.saturatingAdd s.batOffset.toNat (U64.saturatingMul batIndex 8)
  let entry ← .noting ⟨.bat, batIndex⟩ (leU64 s.inner addr)
  if entry &&& 7 ≠ PAYLOAD_BLOCK_FULLY_PRESENT then
    return none
  return some (entry &&& OFFSET_MASK).toNat

theorem exec_locateLogged (s : VhdxSource) (block : ℕ) : (s.locateLogged block).exec = s.locate block := by
  simp only [locateLogged, locate, Logged.exec_bind, Logged.exec_quiet, Logged.exec_noting, apply_ite Logged.exec,
    Logged.exec_pure, Exec.pure_eq]

-- One entry is consulted for a block: as many bitmap entries lie before it as there are full runs.
theorem mem_log_locate {block : ℕ} (hb : block < 2 ^ 44) :
    w ∈ (s.locateLogged block).log ↔ w = ⟨.bat, block + block / s.chunkRatio⟩ := by
  have hd := Nat.div_le_self block s.chunkRatio
  simp only [locateLogged]
  rw [Logged.mem_log_ok_bind (U64.div_eq s.chunkRatio_pos), Logged.mem_log_ok_bind (U64.add_eq (by omega)),
    Logged.mem_log_noting_bind]
  constructor
  case mp =>
    rintro (h | ⟨entry, _, h⟩)
    · exact h
    · split at h <;> cases h
  case mpr => exact .inl

end VhdxSource

namespace Disk

-- `Source::read_at` with the log of the mapping entries that it consults.
def readLogged [OverflowChecks] : Disk → (offset len : ℕ) → Logged Lookup SourceError Bytes
  | qcow2 s => readSpansLogged s.inner s.virtualSize.toNat s.clusterSize s.locateLogged U64.add
  | vmdk s  => readSpansLogged s.inner s.virtualSize s.grainBytes s.locateLogged U64.add
  | vhdx s  => readSpansLogged s.inner s.virtualSize.toNat s.blockSize s.locateLogged
      fun host within => .ok (U64.saturatingAdd host within)

theorem exec_readLogged [OverflowChecks] (d : Disk) (offset len : ℕ) :
    (d.readLogged offset len).exec = d.readAt offset len := by
  cases d with
  | qcow2 s =>
    simp only [readLogged, exec_readSpansLogged, s.exec_locateLogged]
    rfl
  | vmdk s =>
    simp only [readLogged, exec_readSpansLogged, s.exec_locateLogged]
    rfl
  | vhdx s =>
    simp only [readLogged, exec_readSpansLogged, s.exec_locateLogged]
    rfl

end Disk
end Latent
