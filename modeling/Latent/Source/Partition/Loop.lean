import Latent.Source.Partition.Mbr

open Rust

namespace Latent.Partition

variable {content : Bytes} {base : ℕ}

-- The disks whose table comes from the master boot record.
def ReadsMbr (content : Bytes) : Prop :=
  ¬GptUsable content ∧ Signed content 0

instance : Decidable (ReadsMbr content) :=
  inferInstanceAs (Decidable (_ ∧ _))

-- The boot records that are processed on the way to the table, and the entries on the disk that its
-- partitions come from. Both are in order and with repetitions.
def processed (content : Bytes) : List ℕ :=
  if ReadsMbr content then ebrSectors content else []

def reported (content : Bytes) : List (ℕ × ℕ) :=
  if ReadsMbr content then mbrEntries content else []

@[mk_iff]
structure ReportedOnce (content : Bytes) : Prop where
  sectors : (processed content).Nodup
  entries : (reported content).Nodup

-- Only the master boot record is in sector 0, so a chain enters it at its base or not at all.
theorem zero_mem_ebrFrom_iff : 0 ∈ ebrFrom content base 1024 base ↔ Signed content base ∧ base = 0 := by
  rw [ebrFrom]
  split
  case isFalse hs => simp [hs]
  case isTrue hs =>
    rw [and_iff_right hs]
    constructor
    case mp =>
      intro h
      by_contra h₀
      refine Links.forall_mem_walk (p := (· ≠ 0)) h₀ (fun e e' he => ?_) 0 h rfl
      rw [follow] at he
      split at he <;> cases he
      case isFalse hn => exact fun h => hn (.inl (Nat.eq_zero_of_add_eq_zero_left h))
    case mpr =>
      intro h
      rw [Links.walk, h]
      exact List.mem_cons_self

theorem IsPrimary.isLogical {entry : Bytes} (h : IsPrimary entry) : IsLogical entry :=
  ⟨h.1, h.2.2.2⟩

theorem nodup_primaryEntries : (primaryEntries content).Nodup :=
  (List.nodup_range.filter _).map fun _ _ h => (Prod.mk.inj h).2

theorem nodup_logicalEntries {sectors : List ℕ} (h : sectors.Nodup) : (logicalEntries content sectors).Nodup :=
  (h.filter _).map fun _ _ h => (Prod.mk.inj h).1

-- The one entry that can be listed both as a primary and as a logical one is the first of sector 0.
theorem disjoint_entries_iff {sectors : List ℕ} :
    (∀ p ∈ primaryEntries content, ∀ q ∈ logicalEntries content sectors, p ≠ q) ↔
      ¬(0 ∈ sectors ∧ IsPrimary (entryAt content 0 0)) := by
  simp only [primaryEntries, logicalEntries, List.forall_mem_map, List.mem_filter, List.mem_range,
    decide_eq_true_eq, ne_eq, Prod.mk.injEq]
  constructor
  case mp =>
    intro h hz
    exact h 0 ⟨by decide, hz.2⟩ 0 ⟨hz.1, hz.2.isLogical⟩ ⟨rfl, rfl⟩
  case mpr =>
    rintro h slot ⟨_, hp⟩ e ⟨he, _⟩ ⟨rfl, rfl⟩
    exact h ⟨he, hp⟩

theorem nodup_ebrFrom_iff : (ebrFrom content base 1024 base).Nodup ↔
    (Signed content base → ¬Links.HasCycle (follow content base) 1024 base) := by
  rw [ebrFrom]
  split
  case isTrue hs  => rw [Links.nodup_walk_iff, forall_prop_of_true hs]
  case isFalse hs => simp [hs]

theorem reportedOnce_iff_of_readsMbr (h : ReadsMbr content) : ReportedOnce content ↔
    (ebrSectors content).Nodup ∧ ¬(0 ∈ ebrSectors content ∧ IsPrimary (entryAt content 0 0)) := by
  rw [reportedOnce_iff, processed, reported, if_pos h, if_pos h, mbrEntries, List.nodup_append,
    disjoint_entries_iff]
  constructor
  case mp  => exact fun h => ⟨h.1, h.2.2.2⟩
  case mpr => exact fun h => ⟨h.1, nodup_primaryEntries, nodup_logicalEntries h.1, h.2⟩

theorem partitions_table (h : ReadsMbr content) :
    (table content).partitions = number ((reported content).map (mbrVolume content)) := by
  rw [table, if_neg h.1, reported, if_pos h]
  by_cases hn : mbrEntries content = [] <;> simp [hn, h.2, number]

theorem reportedOnce_iff_no_cycle [OverflowChecks] {src : Source} (hc : src.Conforming content) :
    (∃ table, read src = .ok table ∧
      (ReadsMbr content → table.partitions = number ((reported content).map (mbrVolume content)))) ∧
    (ReadsMbr content → ∀ base ∈ (extendedBases content).getLast?,
      (logicalSectors src base : Exec Empty _) = .ok (processed content)) ∧
    (ReportedOnce content ↔
      (ReadsMbr content → ∀ base ∈ (extendedBases content).getLast?, Signed content base →
        ¬Links.HasCycle (follow content base) 1024 base ∧
          ¬(base = 0 ∧ IsPrimary (entryAt content 0 0)))) := by
  refine ⟨⟨table content, read_eq hc, partitions_table⟩, ?_, ?_⟩
  · intro hm base hb
    rw [processed, if_pos hm, logicalSectors_eq hc hb]
  · by_cases hm : ReadsMbr content
    case neg => simp [reportedOnce_iff, processed, reported, hm]
    case pos =>
      rw [reportedOnce_iff_of_readsMbr hm, forall_prop_of_true hm, ebrSectors]
      cases (extendedBases content).getLast? with
      | none      => simp
      | some base =>
        simp only [nodup_ebrFrom_iff, zero_mem_ebrFrom_iff, Option.mem_some_iff, forall_eq']
        constructor
        case mp  => exact fun h hs => ⟨h.1 hs, fun hz => h.2 ⟨⟨hs, hz.1⟩, hz.2⟩⟩
        case mpr => exact fun h => ⟨fun hs => (h hs).1, fun hz => (h hz.1.1).2 ⟨hz.1.2, hz.2⟩⟩

section

attribute [local instance] OverflowChecks.on

theorem reportedOnce_iff_no_cycle_mbrImage : ReportedOnce mbrImage := by
  have hb : (extendedBases mbrImage).getLast? = some 2 := by decide +kernel
  have h₂ : follow mbrImage 2 2 = some 3 := by decide +kernel
  have h₃ : follow mbrImage 2 3 = none := by decide +kernel
  have hw : Links.walk (follow mbrImage 2) 1024 2 = [2, 3] :=
    Links.walk_eq_of_isChain (List.isChain_cons_cons.mpr ⟨h₂, List.isChain_singleton _⟩) (by simp [h₃]) (by decide)
  refine (reportedOnce_iff_no_cycle (rawSource_conforming (by decide +kernel))).2.2.mpr fun _ base he _ => ?_
  rw [hb] at he
  cases he
  exact ⟨Links.nodup_walk_iff.mp (hw ▸ by decide), fun h => absurd h.1 (by decide)⟩

-- The records in the sectors 2 and 3 link to each other.
def loopImage : Bytes :=
  tableSector (mbrEntry 0x05 1 3) ++ (tableSector (mbrEntry 0x00 0 0 ++ mbrEntry 0x05 1 1) ++
    (tableSector (mbrEntry 0x83 1 1 ++ mbrEntry 0x05 2 1) ++
      tableSector (mbrEntry 0x00 0 0 ++ mbrEntry 0x05 1 1)))

theorem loopImage_readsMbr : ReadsMbr loopImage :=
  ⟨fun h => absurd h.signature (by decide +kernel), by decide +kernel⟩

theorem ebrSectors_loopImage : ∃ rest, ebrSectors loopImage = 1 :: 2 :: 3 :: 2 :: rest := by
  have hb : (extendedBases loopImage).getLast? = some 1 := by decide +kernel
  have hs : Signed loopImage 1 := by decide +kernel
  have h₁ : follow loopImage 1 1 = some 2 := by decide +kernel
  have h₂ : follow loopImage 1 2 = some 3 := by decide +kernel
  have h₃ : follow loopImage 1 3 = some 2 := by decide +kernel
  refine ⟨Links.walk (follow loopImage 1) 1020 3, ?_⟩
  rw [ebrSectors, hb]
  calc ebrFrom loopImage 1 1024 1
    _ = Links.walk (follow loopImage 1) 1024 1 := if_pos hs
    _ = 1 :: 2 :: 3 :: 2 :: Links.walk (follow loopImage 1) 1020 3 := by
      rw [Links.walk_of_next h₁, Links.walk_of_next h₂, Links.walk_of_next h₃, Links.walk_of_next h₂]

theorem mbrEntries_loopImage : ∃ rest, mbrEntries loopImage = (2, 0) :: (2, 0) :: rest := by
  have ⟨rest, he⟩ := ebrSectors_loopImage
  have hp : primaryEntries loopImage = [] := by decide +kernel
  have h₁ : ¬IsLogical (entryAt loopImage 1 0) := by decide +kernel
  have h₂ : IsLogical (entryAt loopImage 2 0) := by decide +kernel
  have h₃ : ¬IsLogical (entryAt loopImage 3 0) := by decide +kernel
  refine ⟨logicalEntries loopImage rest, ?_⟩
  simp [mbrEntries, he, hp, logicalEntries, h₁, h₂, h₃]

-- The one logical entry is listed again with every turn of the loop.
theorem not_reportedOnce : ¬ReportedOnce loopImage ∧ ∃ table, read (rawSource loopImage) = .ok table ∧
    let p : Partition := { index := 0, kind := ['0', 'x', '8', '3'], start := 1536, length := 512, name := none }
    table.partitions[0]? = some p ∧ table.partitions[1]? = some { p with index := 1 } := by
  have ⟨rest, he⟩ := mbrEntries_loopImage
  have hv : mbrVolume loopImage (2, 0) =
      { kind := ['0', 'x', '8', '3'], start := 1536, length := 512, name := none } := by decide +kernel
  refine ⟨fun h => ?_, table loopImage, read_eq (rawSource_conforming (by decide +kernel)), ?_⟩
  · have hn := h.entries
    rw [reported, if_pos loopImage_readsMbr, he] at hn
    simp at hn
  · rw [partitions_table loopImage_readsMbr, reported, if_pos loopImage_readsMbr, he]
    simp [number, hv, Volume.toPartition]

end

end Latent.Partition
