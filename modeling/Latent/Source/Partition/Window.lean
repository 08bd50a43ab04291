import Latent.Source.Partition.Mbr
import Latent.Source.Window

open Rust

namespace Latent.Partition

variable {content : Bytes} {disk source : Source} {p : Partition}

def window (p : Partition) (disk : Source) : Exec SourceError Window :=
  Window.range disk p.start (some p.length)

-- A nonempty run of whole sectors whose ends are `u64` values each on its own, but not their sum.
structure Volume.Aligned (v : Volume) : Prop where
  start  : SECTOR ∣ v.start
  length : SECTOR ∣ v.length
  pos    : 0 < v.length

theorem aligned_gptVolume {entry : Bytes} {v : Volume} (h : gptVolume entry = some v) : v.Aligned := by
  simp only [gptVolume] at h
  split at h
  case isTrue => cases h
  case isFalse =>
    split at h
    case isTrue hf =>
      cases h
      refine ⟨Nat.dvd_mul_left .., Nat.dvd_mul_left .., Nat.mul_pos (Nat.succ_pos _) (by decide)⟩
    case isFalse => cases h

theorem aligned_mbrVolume {e : ℕ × ℕ} (h : entryCount (entryAt content e.1 e.2) ≠ 0) :
    (mbrVolume content e).Aligned :=
  ⟨Nat.dvd_mul_left .., Nat.dvd_mul_left .., Nat.mul_pos (Nat.pos_of_ne_zero h) (by decide)⟩

theorem entryCount_of_mem_mbrEntries {e : ℕ × ℕ} (h : e ∈ mbrEntries content) :
    entryCount (entryAt content e.1 e.2) ≠ 0 := by
  rcases List.mem_append.mp h with h | h
  · have ⟨slot, hs, he⟩ := List.mem_map.mp h
    have hp : IsPrimary (entryAt content 0 slot) := by simpa using (List.mem_filter.mp hs).2
    exact he ▸ hp.2.2.2
  · have ⟨sector, hs, he⟩ := List.mem_map.mp h
    have hl : IsLogical (entryAt content sector 0) := by simpa using (List.mem_filter.mp hs).2
    exact he ▸ hl.2

theorem getElem?_number {volumes : List Volume} {i : ℕ} (h : (number volumes)[i]? = some p) :
    ∃ v ∈ volumes, p = v.toPartition i := by
  rw [number, List.getElem?_mapIdx] at h
  obtain ⟨v, hv, he⟩ := Option.map_eq_some_iff.mp h
  exact ⟨v, List.mem_of_getElem? hv, he.symm⟩

-- Everything in the table of a disk is a nonempty run of whole sectors, and knows its position.
theorem exists_aligned_of_table {i : ℕ} (h : (table content).partitions[i]? = some p) :
    ∃ v : Volume, v.Aligned ∧ p = v.toPartition i := by
  simp only [table] at h
  split at h
  case isTrue =>
    obtain ⟨v, hv, he⟩ := getElem?_number h
    obtain ⟨_, _, hg⟩ := List.mem_filterMap.mp hv
    exact ⟨v, aligned_gptVolume hg, he⟩
  case isFalse =>
    split at h
    case isTrue =>
      obtain ⟨v, hv, he⟩ := getElem?_number h
      obtain ⟨e, hm, hg⟩ := List.mem_map.mp hv
      exact ⟨v, hg ▸ aligned_mbrVolume (entryCount_of_mem_mbrEntries hm), he⟩
    case isFalse => cases h

section

variable [OverflowChecks]

-- What a partition of a disk and the window on it come to.
structure Exposes (p : Partition) (disk : Source) (content : Bytes) (i : ℕ) : Prop where
  start   : 512 ∣ p.start
  length  : 512 ∣ p.length
  pos     : 0 < p.length
  index   : p.index = i
  err_iff : (∃ e, p.window disk = .err e) ↔ disk.size < p.start
  ok      : p.start ≤ disk.size → ∃ w, p.window disk = .ok w ∧
    w.toSource.size = min (p.start + p.length) disk.size - p.start ∧
      w.Slices disk p.start w.toSource.size ∧
        w.toSource.Conforming ((content.take (min (p.start + p.length) disk.size)).drop p.start)

theorem exposes_of_table (hc : disk.Conforming content) {i : ℕ}
    (h : (table content).partitions[i]? = some p) : p.Exposes disk content i := by
  have ⟨v, hv, he⟩ := exists_aligned_of_table h
  have hs : disk.size < 2 ^ 64 := hc.size_eq ▸ hc.size_lt
  subst he
  refine ⟨hv.start, hv.length, hv.pos, rfl, ?err_iff, ?ok⟩
  case err_iff =>
    constructor
    case mp =>
      intro ⟨e, hw⟩
      by_contra h
      have ⟨w, hw', _⟩ := Window.range_slices hs (Nat.not_lt.mp h) (some v.length)
      cases hw.symm.trans hw'
    case mpr => exact fun h => ⟨_, Window.range_err h⟩
  case ok =>
    intro h
    have ⟨w, hw, hx⟩ := Window.range_slices hs h (some v.length)
    have hsize : w.toSource.size = min (v.start + v.length) disk.size - v.start := by
      have hl : Window.clamped disk.size v.start (some v.length) = min v.length (disk.size - v.start) := rfl
      have h : v.start ≤ disk.size := h
      rw [hx.size_eq]
      change Window.clamped disk.size v.start (some v.length) = _
      omega
    refine ⟨w, hw, hsize, hx.size_eq ▸ hx, ?_⟩
    have hcw := hx.conforming content hc
    rw [← hx.size_eq, hsize] at hcw
    rwa [List.drop_take]

-- Windows are exact parts of their source, so are windows of windows, and so are the partitions of a disk.
theorem windows_exact :
    (∀ (source : Source) (offset : ℕ) (len : Option ℕ), source.size < 2 ^ 64 →
      ((∃ w, Window.range source offset len = .ok w) ↔ offset ≤ source.size) ∧
      ∀ w, Window.range source offset len = .ok w →
        w.Slices source offset (min (len.getD (source.size - offset)) (source.size - offset)) ∧
        ∀ b len', ((∃ nested, Window.range w.toSource b len' = .ok nested) ↔ b ≤ w.toSource.size) ∧
          ∀ nested, Window.range w.toSource b len' = .ok nested → ∃ single,
            Window.range source (offset + b) (some <| min (len'.getD (w.len - b)) (w.len - b)) = .ok single ∧
              nested.toSource = single.toSource) ∧
    ∀ (disk : Source) (content : Bytes), disk.Conforming content →
      ∃ table, read disk = .ok table ∧
        ∀ (i : ℕ) (p : Partition), table.partitions[i]? = some p → p.Exposes disk content i := by
  refine ⟨?windows, ?partitions⟩
  case windows =>
    intro source offset len hs
    refine ⟨Window.range_eq_ok_iff, fun w hw => ⟨?slices, fun b len' => ⟨Window.range_eq_ok_iff, ?nested⟩⟩⟩
    case slices =>
      have ⟨w', hw', hx⟩ := Window.range_slices hs (Window.range_eq_ok_iff.mp ⟨w, hw⟩) len
      cases hw.symm.trans hw'
      exact hx
    case nested =>
      intro nested hn
      have hb : b ≤ w.len := Window.range_eq_ok_iff.mp ⟨nested, hn⟩
      have ⟨nested', single, hn', hx, he⟩ := Window.range_range hs hw hb len'
      cases hn.symm.trans hn'
      exact ⟨single, hx, he⟩
  case partitions =>
    intro disk content hc
    exact ⟨_, read_eq hc, fun i p h => exposes_of_table hc h⟩

end

attribute [local instance] OverflowChecks.on

theorem windows_exact_mbrImage :
    (∃ w, Window.range (rawSource [1, 2, 3, 4]) 1 (some 2) = .ok w ∧ w.toSource.readAt 1 9 = .ok [3]) ∧
      ∃ table p, read (rawSource mbrImage) = .ok table ∧ table.partitions[1]? = some p ∧ p.start = 1536 ∧
        p.Exposes (rawSource mbrImage) mbrImage 1 := by
  have ⟨hr, hx⟩ := windows_exact.1 (rawSource [1, 2, 3, 4]) 1 (some 2) (by decide)
  have ⟨w, hw⟩ := hr.mpr (by decide)
  have hc : (rawSource mbrImage).Conforming mbrImage := rawSource_conforming (by decide +kernel)
  have ⟨table, ht, hp⟩ := windows_exact.2 (rawSource mbrImage) mbrImage hc
  have he : table = Partition.table mbrImage := Exec.ok.inj (ht.symm.trans (read_eq hc))
  have hi : table.partitions[1]? =
      some { index := 1, kind := ['0', 'x', '0', '7'], start := 1536, length := 512, name := none } := by
    rw [he]
    decide +kernel
  refine ⟨⟨w, hw, ?_⟩, table, _, ht, hi, rfl, hp 1 _ hi⟩
  rw [(hx w hw).1.readAt 1 9 (by decide)]
  decide

end Latent.Partition
