import Latent.Source.Degraded
import Latent.Source.Partition.Mbr

open Rust

namespace Latent.Partition

variable {ε : Type}

section

variable [OverflowChecks] {s t : Source} {content : Bytes} {volumes : List Volume}

-- The exact reads that a source answers.
def gives (src : Source) (offset len : ℕ) : Bool :=
  match src.readExactAt offset len with
  | .ok _ => true
  | _     => false

def readable (src : Source) (e : ℕ) : Bool :=
  gives src (e * SECTOR) SECTOR

-- It then gives the content.
theorem readExactAt_decides (h : s.Impaired t) (hc : t.Conforming content) {offset len : ℕ} (h₀ : 0 < len) :
    (s.readExactAt offset len).Decides (gives s offset len) (subslice content offset len) := by
  rcases (h.readExactAt offset len).cases with hr | ⟨e, hr⟩
  case inr => exact ⟨fun hg => by simp [gives, hr] at hg, fun _ => ⟨e, hr⟩⟩
  case inl =>
    rcases hc.readExactAt_cases offset h₀ with ⟨_, ht⟩ | ⟨_, e, ht⟩
    · exact ⟨fun _ => hr.trans ht, fun hg => absurd (by simp [gives, hr, ht]) hg⟩
    · exact ⟨fun hg => by simp [gives, hr, ht] at hg, fun _ => ⟨e, hr.trans ht⟩⟩

theorem fits_of_gives (h : s.Impaired t) (hc : t.Conforming content) {offset len : ℕ} (h₀ : 0 < len)
    (hg : gives s offset len) : offset + len ≤ content.length := by
  have ht := (h.readExactAt offset len).eq_ok ((readExactAt_decides h hc h₀).ok hg)
  exact ((hc.readExactAt_decides offset h₀).ok_iff.mp ht).1

-- The entries that there are up to the first extended boot record which cannot be read.
def readableEntries (src : Source) (content : Bytes) : List (ℕ × ℕ) :=
  primaryEntries content ++ logicalEntries content ((ebrSectors content).takeWhile (readable src))

theorem logicalEntries_takeWhile_cons {src : Source} {e : ℕ} {sectors : List ℕ} (h : readable src e = true) :
    logicalEntries content ((e :: sectors).takeWhile (readable src)) =
      (if IsLogical (entryAt content e 0) then [(e, 0)] else []) ++
        logicalEntries content (sectors.takeWhile (readable src)) := by
  rw [List.takeWhile_cons_of_pos h, logicalEntries_cons]

-- A sector that cannot be read ends the chain like one that is no boot record.
theorem readChain_impaired (h : s.Impaired t) (hc : t.Conforming content) {fuel b e : ℕ} (hb : b < 2 ^ 32)
    (he : e < 2 ^ 33) : (readChain s b fuel e (number volumes) : Exec ε _) = .ok (number (volumes ++
      (logicalEntries content ((ebrFrom content b fuel e).takeWhile (readable s))).map (mbrVolume content))) := by
  induction fuel generalizing e volumes with
  | zero => simp [readChain, ebrFrom, Links.walk, logicalEntries]
  | succ fuel hi =>
    rw [readChain_succ, mul_sector he, Exec.ok_bind]
    rcases (h.readExactAt (e * SECTOR) SECTOR).cases with hr | ⟨_, hr⟩
    case inr =>
      have hn : ¬readable s e := by simp [readable, gives, hr]
      rw [hr]
      by_cases hs : Signed content e
      case pos => simp [ebrFrom_succ hs, List.takeWhile_cons_of_neg hn, logicalEntries]
      case neg => simp [ebrFrom, hs, logicalEntries]
    case inl =>
      rcases hc.readExactAt_cases (e * SECTOR) (show 0 < SECTOR by decide) with ⟨hl, ht⟩ | ⟨hl, _, ht⟩
      case inr =>
        have hs : ¬Signed content e := fun hs => absurd hs.1 (Nat.not_le_of_lt hl)
        rw [hr, ht]
        simp [ebrFrom, hs, logicalEntries]
      case inl =>
        have hx : readable s e = true := by simp [readable, gives, hr, ht]
        rw [hr, ht]
        by_cases hs : Signed content e
        case neg => simp [chainTurn_unsigned hl hs, ebrFrom, hs, logicalEntries]
        case pos =>
          simp only [chainTurn_signed hb he hs, Exec.ok_bind, ebrFrom_succ hs, logicalEntries_takeWhile_cons hx]
          by_cases hlink : linkOf content e = 0 ∨ b + linkOf content e = e
          case pos => by_cases hx : IsLogical (entryAt content e 0) <;> simp [hlink, logicalEntries, hx]
          case neg =>
            simp only [if_neg hlink, hi (add_linkOf_lt hb)]
            by_cases hx : IsLogical (entryAt content e 0) <;> simp [hx]

theorem readMbr_impaired (h : s.Impaired t) (hc : t.Conforming content) : readMbr s =
    if readable s 0 ∧ Signed content 0 ∧ readableEntries s content ≠ [] then
      .ok (number ((readableEntries s content).map (mbrVolume content))) else .err () := by
  have hz : readable s 0 = gives s 0 SECTOR := by rw [readable, Nat.zero_mul]
  have hd : (s.readExactAt 0 SECTOR).Decides (gives s 0 SECTOR) (subslice content 0 SECTOR) :=
    readExactAt_decides h hc (by decide)
  rw [hz]
  by_cases hg : gives s 0 SECTOR
  case neg =>
    obtain ⟨_, he⟩ := hd.err hg
    simp [readMbr, he, hg]
  case pos =>
    have hl : SECTOR ≤ content.length := by simpa using fits_of_gives h hc (by decide) hg
    simp only [hg, true_and]
    refine readMbr_of_sectors hl (hd.ok hg) (fun hx => by simp only [ebrSectors, hx, List.takeWhile_nil]) ?_
    intro b hx volumes
    have hb := lt_of_mem_extendedBases (List.mem_of_getLast? hx)
    simp only [ebrSectors, hx]
    exact readChain_impaired h hc hb (Nat.lt_trans hb (by decide))

-- The two parts of a GUID partition table.
def gptReadable (src : Source) (content : Bytes) : Bool :=
  gives src SECTOR SECTOR && gives src (gptOffset content) (gptCount content * gptEntrySize content)

theorem readGpt_impaired (h : s.Impaired t) (hc : t.Conforming content) :
    (readGpt s).Decides (GptUsable content ∧ gptReadable s content) (number (gptVolumes content)) := by
  have hs : 0 < SECTOR := by decide
  have hd := readGpt_decides_of (fits_of_gives h hc hs) (readExactAt_decides h hc hs) fun hp =>
    readExactAt_decides h hc hp
  have hg : gptReadable s content = true ↔ gives s SECTOR SECTOR = true ∧
      gives s (gptOffset content) (gptCount content * gptEntrySize content) = true := Bool.and_eq_true_iff
  rw [gptUsable_iff, hg]
  constructor
  case ok =>
    rintro ⟨⟨_, hsig, hsize, hcrc, he, ho, _, ha⟩, hg, hg'⟩
    exact hd.ok ⟨hg, hsig, hsize, hcrc, he, ho, hg', ha⟩
  case err =>
    intro hn
    apply hd.err
    rintro ⟨hg, hsig, hsize, hcrc, he, ho, hg', ha⟩
    apply hn
    have hp : 0 < gptCount content * gptEntrySize content :=
      Nat.mul_pos (Nat.pos_of_ne_zero he.2.1) (Nat.lt_of_lt_of_le (by decide) he.1.1)
    exact ⟨⟨fits_of_gives h hc hs hg, hsig, hsize, hcrc, he, ho, fits_of_gives h hc hp hg', ha⟩, hg, hg'⟩

-- What is to be had of the table of a disk: the GUID partition table as a whole or not at all, and without
-- one the entries of the master boot record up to where it cannot be read any further.
def salvagedTable (src : Source) (content : Bytes) : PartitionTable :=
  if GptUsable content ∧ gptReadable src content then
    { scheme := .gpt, partitions := number (gptVolumes content) }
  else if readable src 0 ∧ Signed content 0 ∧ readableEntries src content ≠ [] then
    { scheme := .mbr, partitions := number ((readableEntries src content).map (mbrVolume content)) }
  else
    { scheme := .none, partitions := [] }

theorem read_impaired (h : s.Impaired t) (hc : t.Conforming content) :
    read s = .ok (salvagedTable s content) := by
  rw [read, readMbr_impaired h hc, salvagedTable]
  by_cases hg : GptUsable content ∧ gptReadable s content
  case pos => simp only [(readGpt_impaired h hc).ok hg, if_pos hg]
  case neg =>
    obtain ⟨e, he⟩ := (readGpt_impaired h hc).err hg
    simp only [he, if_neg hg]
    by_cases hm : readable s 0 ∧ Signed content 0 ∧ readableEntries s content ≠ []
    case pos => simp only [if_pos hm]
    case neg => simp only [if_neg hm]

end

section

attribute [local instance] OverflowChecks.on

-- The second of two extended boot records cannot be read, and so its partition is not found.
theorem read_impaired_mbrImage :
    let s := (RawSource.openPositioned "" (.failingFrom mbrImage 1536)).toSource
    read s = .ok (salvagedTable s mbrImage) ∧ (salvagedTable s mbrImage).partitions.length = 1 ∧
      (table mbrImage).partitions.length = 2 := by
  intro s
  have hs : Degraded s (File.failingFrom mbrImage 1536).bytes :=
    .file (File.failingFrom_fallible 1536 (by decide +kernel))
  have ⟨t, ht, hi⟩ := hs.exists_mounted
  have hone : (read s >>= fun tab => .ok tab.partitions.length) = .ok 1 := by decide +kernel
  have hr : read s = .ok (salvagedTable s mbrImage) := read_impaired hi ht.conforming
  rw [hr, Exec.ok_bind] at hone
  exact ⟨hr, Exec.ok.inj hone, by decide +kernel⟩

end

end Latent.Partition
