import Latent.Source.Partition.Listing

open Rust

namespace Latent.Partition

variable {ε : Type} {content : Bytes} {volumes : List Volume} {base : Option ℕ}

theorem checkedLength_eq (first last : ℕ) :
    ((U64.checkedSub last first).bind (U64.checkedAdd · 1)).bind (U64.checkedMul · SECTOR) =
      if first ≤ last ∧ (last - first + 1) * SECTOR < 2 ^ 64 then some ((last - first + 1) * SECTOR) else none := by
  simp only [U64.checkedSub, U64.checkedAdd, U64.checkedMul]
  by_cases h : first ≤ last
  case neg => simp only [h, if_false, Option.bind_none, false_and]
  case pos =>
    by_cases ha : last - first + 1 < 2 ^ 64
    case pos => simp only [h, ha, if_true, Option.bind_some, true_and]
    case neg =>
      have hm : ¬(last - first + 1) * SECTOR < 2 ^ 64 := by
        simp only [SECTOR]
        omega
      simp only [h, ha, hm, if_true, if_false, Option.bind_some, Option.bind_none, and_false]

theorem readEntries_cons {entry : Bytes} {chunks : List Bytes} (h : 128 ≤ entry.length) :
    (readEntries (entry :: chunks) (number volumes) : Exec ε _) =
      readEntries chunks (number (volumes ++ (gptVolume entry).toList)) := by
  simp (disch := omega) only [readEntries, slice_eq, Exec.ok_bind, gptVolume, Bytes.leAt, Nat.reduceSub]
  rw [checkedLength_eq, U64.checkedMul]
  by_cases hz : (subslice entry 0 16).all (decide <| · = 0)
  case pos => simp [hz]
  case neg =>
    rw [if_neg hz, if_neg hz]
    by_cases hs : Bytes.fromLE (subslice entry 32 8) * SECTOR < 2 ^ 64
    case neg => simp [-Nat.reducePow, hs]
    case pos =>
      simp only [hs, true_and]
      by_cases hl : Bytes.fromLE (subslice entry 32 8) ≤ Bytes.fromLE (subslice entry 40 8) ∧
          (Bytes.fromLE (subslice entry 40 8) - Bytes.fromLE (subslice entry 32 8) + 1) * SECTOR < 2 ^ 64
      case pos => simp [-Nat.reducePow, hl, number_concat, Volume.toPartition]
      case neg => simp [-Nat.reducePow, hl]

theorem readEntries_eq {chunks : List Bytes} (h : ∀ c ∈ chunks, 128 ≤ c.length) :
    (readEntries chunks (number volumes) : Exec ε _) =
      .ok (number (volumes ++ chunks.filterMap gptVolume)) := by
  induction chunks generalizing volumes with
  | nil => simp [readEntries]
  | cons c chunks hi =>
    rw [readEntries_cons (h c List.mem_cons_self), hi fun d hd => h d (List.mem_cons_of_mem _ hd),
      List.append_assoc, List.filterMap_cons]
    cases gptVolume c <;> rfl

theorem length_entryAt {sector slot : ℕ} (h : sector * SECTOR + SECTOR ≤ content.length) (hs : slot < 4) :
    (entryAt content sector slot).length = 16 := by
  simp only [SECTOR] at h
  refine length_subslice_of_le ?_
  simp only [SECTOR]
  omega

theorem fromLE_start {entry : Bytes} : Bytes.fromLE (subslice entry 8 4) = entryStart entry :=
  rfl

theorem fromLE_count {entry : Bytes} : Bytes.fromLE (subslice entry 12 4) = entryCount entry :=
  rfl

theorem getElem?_sector {e i : ℕ} (hi : i < SECTOR) :
    (subslice content (e * SECTOR) SECTOR)[i]? = content[e * SECTOR + i]? :=
  getElem?_subslice_of_lt hi

-- What the signature check finds in a sector.
theorem exists_signature {e : ℕ} (hl : e * SECTOR + SECTOR ≤ content.length) :
    ∃ s₀ s₁, (subslice content (e * SECTOR) SECTOR)[510]? = some s₀ ∧
      (subslice content (e * SECTOR) SECTOR)[511]? = some s₁ ∧
        ((s₀ ≠ 0x55 ∨ s₁ ≠ 0xAA) ↔ ¬Signed content e) := by
  have hb : e * SECTOR + 512 ≤ content.length := hl
  have h₀ : content[e * SECTOR + 510]? = some _ := List.getElem?_eq_getElem (by omega)
  have h₁ : content[e * SECTOR + 511]? = some _ := List.getElem?_eq_getElem (by omega)
  refine ⟨_, _, (getElem?_sector (by decide)).trans h₀, (getElem?_sector (by decide)).trans h₁, ?_⟩
  rw [Signed, h₀, h₁, Option.some.injEq, Option.some.injEq, ← not_and_or]
  exact not_congr (and_iff_right hl).symm

theorem entryAt_eq_subslice (e slot : ℕ) (hs : slot < 4) :
    subslice (subslice content (e * SECTOR) SECTOR) (446 + 16 * slot) 16 = entryAt content e slot :=
  subslice_subslice (by simp only [SECTOR]; omega)

theorem slice_entryAt {e : ℕ} (slot : ℕ) (h : e * SECTOR + SECTOR ≤ content.length) (hs : slot < 4) :
    (slice (subslice content (e * SECTOR) SECTOR) (446 + 16 * slot) (446 + 16 * slot + 16) : Exec ε Bytes) =
      .ok (entryAt content e slot) := by
  have hl : (subslice content (e * SECTOR) SECTOR).length = 512 := length_subslice_of_le h
  rw [slice_eq (by omega) (by omega), Nat.add_sub_cancel_left, entryAt_eq_subslice e slot hs]

-- The fields of an entry are four bytes wide.
theorem entryStart_lt {entry : Bytes} : entryStart entry < 2 ^ 32 :=
  Bytes.leAt_lt

theorem entryCount_lt {entry : Bytes} : entryCount entry < 2 ^ 32 :=
  Bytes.leAt_lt

-- A link leads from a base to a sector whose entries have exact byte ranges.
theorem add_linkOf_lt {b e : ℕ} (h : b < 2 ^ 32) : b + linkOf content e < 2 ^ 33 :=
  Nat.add_lt_add h entryStart_lt

theorem mbrVolume_fits {p : ℕ × ℕ} (h : p.1 < 2 ^ 33) :
    (mbrVolume content p).start < 2 ^ 64 ∧ (mbrVolume content p).length < 2 ^ 64 := by
  have hs := @entryStart_lt (entryAt content p.1 p.2)
  have hn := @entryCount_lt (entryAt content p.1 p.2)
  simp only [mbrVolume, SECTOR]
  omega

theorem getElem?_entry {entry : Bytes} (h : entry.length = 16) : entry[4]? = some (entryKind entry) := by
  rw [entryKind, List.getD_eq_getElem?_getD, List.getElem?_eq_getElem (by omega), Option.getD_some]

theorem slots_eq (h : SECTOR ≤ content.length) :
    (chunksExact 16 (subslice (subslice content 0 SECTOR) 446 64)).take 4 =
      (List.range 4).map (entryAt content 0) := by
  have hl : (subslice (subslice content 0 SECTOR) 446 64).length = 64 := by
    refine length_subslice_of_le ?_
    rw [length_subslice_of_le (by rwa [Nat.zero_add])]
    decide
  rw [chunksExact, hl, ← List.map_take]
  refine List.map_congr_left fun slot hs => ?_
  have hs : slot < 4 := List.mem_range.mp hs
  have he : subslice (subslice content (0 * SECTOR) SECTOR) (446 + 16 * slot) 16 = _ :=
    entryAt_eq_subslice 0 slot hs
  rw [Nat.zero_mul] at he
  rw [subslice_subslice (by omega), he]

theorem lt_of_mem_extendedBases {b : ℕ} (h : b ∈ extendedBases content) : b < 2 ^ 32 := by
  have ⟨slot, _, he⟩ := List.mem_map.mp h
  exact he ▸ entryStart_lt

theorem unlessEmpty_eq {entries : List (ℕ × ℕ)} :
    (Exec.errIf (number (entries.map (mbrVolume content)) = []) () >>= fun _ =>
      .ok (number (entries.map (mbrVolume content)))) =
        if entries ≠ [] then .ok (number (entries.map (mbrVolume content))) else .err () := by
  by_cases h : entries = [] <;> simp [h, number_eq_nil_iff]

theorem ebrFrom_succ {b fuel e : ℕ} (hs : Signed content e) :
    ebrFrom content b (fuel + 1) e = e ::
      if linkOf content e = 0 ∨ b + linkOf content e = e then []
      else ebrFrom content b fuel (b + linkOf content e) := by
  rw [ebrFrom, if_pos hs, Links.walk, follow, ebrFrom]
  by_cases hl : linkOf content e = 0 ∨ b + linkOf content e = e
  case pos => simp [← or_assoc, hl]
  case neg => by_cases hn : Signed content (b + linkOf content e) <;> simp [hl, hn]

theorem logicalEntries_cons {e : ℕ} {sectors : List ℕ} :
    logicalEntries content (e :: sectors) =
      (if IsLogical (entryAt content e 0) then [(e, 0)] else []) ++ logicalEntries content sectors := by
  by_cases hx : IsLogical (entryAt content e 0) <;> simp [logicalEntries, hx]

section

variable [OverflowChecks] {src : Source}

-- What is decided, in order. The two reads are the only thing that depends on the source.
theorem readGpt_decides_of {P Q : Prop} (hl : P → SECTOR + SECTOR ≤ content.length)
    (hr : (src.readExactAt SECTOR SECTOR).Decides P (gptHeader content))
    (ha : 0 < gptCount content * gptEntrySize content →
      (src.readExactAt (gptOffset content) (gptCount content * gptEntrySize content)).Decides Q
        (gptArray content)) :
    (readGpt src).Decides (P ∧ subslice (gptHeader content) 0 8 = GPT_SIGNATURE ∧
      (92 ≤ Bytes.leAt (gptHeader content) 12 4 ∧ Bytes.leAt (gptHeader content) 12 4 ≤ SECTOR) ∧
      Crc32.hash (checkedGptHeader content) = Bytes.leAt (gptHeader content) 16 4 ∧
      ((128 ≤ gptEntrySize content ∧ gptEntrySize content ≤ 4096) ∧
        gptCount content ≠ 0 ∧ gptCount content ≤ 4096) ∧
      gptOffset content < 2 ^ 64 ∧ Q ∧ Crc32.hash (gptArray content) = Bytes.leAt (gptHeader content) 88 4)
      (number (gptVolumes content)) := by
  refine .bind hr.toOption fun hP => ?_
  have hlen : (gptHeader content).length = 512 := length_subslice_of_le (hl hP)
  simp (disch := omega) only [slice_eq, Exec.ok_bind, Nat.reduceSub]
  refine .check not_not fun _ => .check not_not fun hs => ?_
  have hf : (slice (gptHeader content) 0 (Bytes.fromLE (subslice (gptHeader content) 12 4)) : Exec Unit Bytes) =
      .ok (subslice (gptHeader content) 0 (Bytes.leAt (gptHeader content) 12 4)) :=
    slice_eq (Nat.zero_le _) (hlen ▸ hs.2)
  have hz : (fillZero (subslice (gptHeader content) 0 (Bytes.leAt (gptHeader content) 12 4)) 16 20 :
      Exec Unit Bytes) = .ok (checkedGptHeader content) := by
    refine if_pos ⟨by decide, ?_⟩
    rw [length_subslice_of_le (by rw [hlen, Nat.zero_add]; exact hs.2)]
    exact Nat.le_trans (by decide) hs.1
  rw [hf, Exec.ok_bind, hz, Exec.ok_bind]
  refine .check not_not fun _ => .check (by rw [not_or, not_or, not_not, Nat.not_lt]; rfl) fun he => ?_
  refine .bind (b := gptOffset content) (.okOr (fun h => if_pos h) fun h => if_neg h) fun _ => ?_
  have hm : gptCount content * gptEntrySize content ≤ 4096 * 4096 := Nat.mul_le_mul he.2.2 he.1.2
  have hu : (U64.mul (gptCount content) (gptEntrySize content) : Exec Unit ℕ) = _ :=
    U64.mul_eq (Nat.lt_of_le_of_lt hm (by decide))
  have hp : 0 < gptCount content * gptEntrySize content :=
    Nat.mul_pos (Nat.pos_of_ne_zero he.2.1) (Nat.lt_of_lt_of_le (by decide) he.1.1)
  rw [← Bytes.leAt, ← Bytes.leAt, ← gptCount, ← gptEntrySize, hu, Exec.ok_bind]
  refine .bind (ha hp).toOption fun _ => ?_
  have hv : (readEntries (chunksExact (gptEntrySize content) (gptArray content)) [] : Exec Unit _) =
      .ok (number (gptVolumes content)) :=
    @readEntries_eq Unit [] _ fun c hc => length_of_mem_chunksExact hc ▸ he.1.1
  rw [hv]
  exact .last not_not

theorem readGpt_decides (hc : src.Conforming content) :
    (readGpt src).Decides (GptUsable content) (number (gptVolumes content)) := by
  rw [gptUsable_iff]
  exact readGpt_decides_of id (hc.readExactAt_decides SECTOR (by decide)) fun hp => hc.readExactAt_decides _ hp

theorem primary_eq {sector slot index : ℕ} (h : sector < 2 ^ 33) :
    (primary index (entryKind (entryAt content sector slot)) (sector + entryStart (entryAt content sector slot))
      (entryCount (entryAt content sector slot)) : Exec ε Partition) =
        .ok ((mbrVolume content (sector, slot)).toPartition index) := by
  have hf : (mbrVolume content (sector, slot)).start < _ ∧ (mbrVolume content (sector, slot)).length < _ :=
    mbrVolume_fits h
  rw [primary, U64.mul_eq hf.1, Exec.ok_bind, U64.mul_eq hf.2, Exec.ok_bind]
  rfl

theorem readSlot_eq {slot : ℕ} (h : SECTOR ≤ content.length) (hs : slot < 4) :
    (readSlot (number volumes, base) (entryAt content 0 slot) : Exec ε _) =
      .ok (number (volumes ++ if IsPrimary (entryAt content 0 slot) then [mbrVolume content (0, slot)] else []),
        if isExtended (entryKind (entryAt content 0 slot)) then some (entryStart (entryAt content 0 slot))
        else base) := by
  have hl : (entryAt content 0 slot).length = 16 := length_entryAt (by simpa using h) hs
  have hp : (primary volumes.length (entryKind (entryAt content 0 slot))
      (0 + entryStart (entryAt content 0 slot)) (entryCount (entryAt content 0 slot)) : Exec ε _) = _ :=
    primary_eq (by decide)
  rw [Nat.zero_add] at hp
  simp (disch := omega) only [readSlot, getElem?_entry hl, Exec.unwrap_some, slice_eq, Exec.ok_bind,
    Nat.reduceSub, fromLE_start, fromLE_count]
  by_cases h₀ : entryKind (entryAt content 0 slot) = 0x00
  case pos => simp [h₀, IsPrimary, isExtended]
  case neg =>
    by_cases he : entryKind (entryAt content 0 slot) = 0xEE
    case pos => simp [he, IsPrimary, isExtended]
    case neg =>
      by_cases hx : isExtended (entryKind (entryAt content 0 slot))
      case pos => simp [h₀, he, hx, IsPrimary]
      case neg =>
        by_cases hn : entryCount (entryAt content 0 slot) = 0
        case pos => simp [h₀, he, hx, hn, IsPrimary]
        case neg => simp [h₀, he, hx, hn, IsPrimary, hp, number_concat]

theorem readSlots_eq {slots : List ℕ} (h : SECTOR ≤ content.length) (hs : ∀ slot ∈ slots, slot < 4) :
    ((slots.map (entryAt content 0)).foldlM readSlot (number volumes, base) : Exec ε _) =
      .ok (number (volumes ++
          ((slots.filter fun slot => IsPrimary (entryAt content 0 slot)).map (Prod.mk 0)).map (mbrVolume content)),
        ((slots.filter fun slot => isExtended (entryKind (entryAt content 0 slot))).map
          fun slot => entryStart (entryAt content 0 slot)).getLast?.or base) := by
  induction slots generalizing volumes base with
  | nil => simp
  | cons slot slots hi =>
    have ⟨h₁, ht⟩ := List.forall_mem_cons.mp hs
    rw [List.map_cons, List.foldlM_cons, readSlot_eq h h₁, Exec.ok_bind, hi ht]
    by_cases hp : IsPrimary (entryAt content 0 slot) <;>
      by_cases hx : isExtended (entryKind (entryAt content 0 slot)) <;>
        simp [hp, hx, List.getLast?_cons]

-- A turn of the loop leaves at a sector that is no boot record, be it read or not.
theorem readExactAt_unsigned (hc : src.Conforming content) {e : ℕ} (hs : ¬Signed content e) :
    (∃ sector s₀ s₁, src.readExactAt (e * SECTOR) SECTOR = .ok sector ∧ sector[510]? = some s₀ ∧
      sector[511]? = some s₁ ∧ (s₀ ≠ 0x55 ∨ s₁ ≠ 0xAA)) ∨
        ∃ error, src.readExactAt (e * SECTOR) SECTOR = .err error := by
  rcases hc.readExactAt_cases (e * SECTOR) (show 0 < SECTOR by decide) with ⟨hl, hr⟩ | ⟨_, error, hr⟩
  · have ⟨s₀, s₁, h₀, h₁, hn⟩ := exists_signature hl
    exact .inl ⟨_, s₀, s₁, hr, h₀, h₁, hn.mpr hs⟩
  · exact .inr ⟨error, hr⟩

theorem readExactAt_signed (hc : src.Conforming content) {e : ℕ} (hs : Signed content e) :
    ∃ sector, src.readExactAt (e * SECTOR) SECTOR = .ok sector ∧ sector[510]? = some 0x55 ∧
      sector[511]? = some 0xAA ∧ (slice sector 446 462 : Exec ε Bytes) = .ok (entryAt content e 0) ∧
        (slice sector 462 478 : Exec ε Bytes) = .ok (entryAt content e 1) := by
  have ⟨hl, h₀, h₁⟩ := hs
  rw [← getElem?_sector (by decide)] at h₀ h₁
  exact ⟨_, hc.readExactAt_ok hl, h₀, h₁, slice_entryAt 0 hl (by decide), slice_entryAt 1 hl (by decide)⟩

theorem mul_sector {e : ℕ} (h : e < 2 ^ 33) : (U64.mul e SECTOR : Exec ε ℕ) = .ok (e * SECTOR) := by
  refine U64.mul_eq ?_
  simp only [SECTOR]
  omega

theorem add_link {b e : ℕ} (hb : b < 2 ^ 32) :
    (U64.add b (linkOf content e) : Exec ε ℕ) = .ok (b + linkOf content e) :=
  U64.add_eq (Nat.lt_trans (add_linkOf_lt hb) (by decide))

-- Where the loop over the boot records goes on from a sector that it has got.
def chainNext (extendedBase ebr : ℕ) (sector : Bytes) : Exec ε (Option ℕ) := do
  let next ← slice sector 462 478
  let nextRel := Bytes.fromLE (← slice next 8 12)
  if nextRel = 0 then
    .ok none
  else
    let nextEbr ← U64.add extendedBase nextRel
    .ok (if nextEbr = ebr then none else some nextEbr)

-- What is listed after a turn, and where to go on.
def chainTurn (extendedBase ebr : ℕ) (partitions : List Partition) (sector : Bytes) :
    Exec ε (List Partition × Option ℕ) := do
  let signature₀ ← Exec.unwrap sector[510]?
  let signature₁ ← Exec.unwrap sector[511]?
  if signature₀ ≠ 0x55 ∨ signature₁ ≠ 0xAA then
    .ok (partitions, none)
  else
    let logical ← slice sector 446 462
    let kind ← Exec.unwrap logical[4]?
    let start := Bytes.fromLE (← slice logical 8 12)
    let count := Bytes.fromLE (← slice logical 12 16)
    if kind ≠ 0 ∧ count ≠ 0 then
      let partition ← primary partitions.length kind (← U64.add ebr start) count
      .ok (partitions ++ [partition], ← chainNext extendedBase ebr sector)
    else
      .ok (partitions, ← chainNext extendedBase ebr sector)

theorem readChain_succ {b fuel e : ℕ} {l : List Partition} : (readChain src b (fuel + 1) e l : Exec ε _) = (do
    match src.readExactAt (← U64.mul e SECTOR) SECTOR with
    | .panic     => .panic
    | .err _     => .ok l
    | .ok sector => do
      let (l, next) ← chainTurn b e l sector
      match next with
      | none   => .ok l
      | some e => readChain src b fuel e l) := by
  rw [readChain]
  congr 1
  funext offset
  cases src.readExactAt offset SECTOR with
  | panic     => rfl
  | err _     => rfl
  | ok sector =>
    have hn : ∀ l, (do
        let next ← slice sector 462 478
        let entry ← slice next 8 12
        if Bytes.fromLE entry = 0 then
          .ok l
        else
          let nextEbr ← U64.add b (Bytes.fromLE entry)
          if nextEbr = e then .ok l else readChain src b fuel nextEbr l) = (do
        match ← chainNext b e sector with
        | none   => Exec.ok (ε := ε) l
        | some e => readChain src b fuel e l) := by
      intro l
      simp only [chainNext, bind_assoc]
      iterate 2 refine congrArg _ (funext fun _ => ?_)
      split
      case isTrue  => rfl
      case isFalse =>
        simp only [bind_assoc, Exec.ok_bind]
        refine congrArg _ (funext fun _ => ?_)
        split <;> rfl
    simp only [chainTurn, bind_assoc, Exec.ok_bind, hn]
    iterate 2 refine congrArg _ (funext fun _ => ?_)
    split
    case isTrue  => rfl
    case isFalse =>
      simp only [bind_assoc]
      iterate 4 refine congrArg _ (funext fun _ => ?_)
      split <;> simp only [bind_assoc, Exec.ok_bind]

-- What a turn makes of a sector that could be read.
theorem chainTurn_unsigned {b e : ℕ} {l : List Partition} (hl : e * SECTOR + SECTOR ≤ content.length)
    (hs : ¬Signed content e) :
    (chainTurn b e l (subslice content (e * SECTOR) SECTOR) : Exec ε _) = .ok (l, none) := by
  have ⟨s₀, s₁, h₀, h₁, hn⟩ := exists_signature hl
  simp only [chainTurn, h₀, h₁, Exec.unwrap_some, Exec.ok_bind, if_pos (hn.mpr hs)]

theorem chainTurn_signed {b e : ℕ} (hb : b < 2 ^ 32) (he : e < 2 ^ 33) (hs : Signed content e) :
    (chainTurn b e (number volumes) (subslice content (e * SECTOR) SECTOR) : Exec ε _) =
      .ok (number (volumes ++ if IsLogical (entryAt content e 0) then [mbrVolume content (e, 0)] else []),
        if linkOf content e = 0 ∨ b + linkOf content e = e then none else some (b + linkOf content e)) := by
  have ⟨hl, h₀, h₁⟩ := hs
  rw [← getElem?_sector (by decide)] at h₀ h₁
  have he₀ : (slice (subslice content (e * SECTOR) SECTOR) 446 462 : Exec ε Bytes) = _ :=
    slice_entryAt 0 hl (by decide)
  have he₁ : (slice (subslice content (e * SECTOR) SECTOR) 462 478 : Exec ε Bytes) = _ :=
    slice_entryAt 1 hl (by decide)
  have hp : (primary volumes.length (entryKind (entryAt content e 0)) (e + entryStart (entryAt content e 0))
      (entryCount (entryAt content e 0)) : Exec ε _) = _ := primary_eq he
  have ha : (U64.add e (entryStart (entryAt content e 0)) : Exec ε ℕ) = _ :=
    U64.add_eq (Nat.lt_trans (Nat.add_lt_add he entryStart_lt) (by decide))
  have hl₀ : (entryAt content e 0).length = 16 := length_entryAt hl (by decide)
  have hl₁ : (entryAt content e 1).length = 16 := length_entryAt hl (by decide)
  have hlink : entryStart (entryAt content e 1) = linkOf content e := rfl
  simp (disch := omega) only [chainTurn, chainNext, h₀, h₁, Exec.unwrap_some, Exec.ok_bind, he₀, he₁, slice_eq,
    Nat.reduceSub, getElem?_entry hl₀, fromLE_start, fromLE_count, ha, hlink]
  rw [if_neg (by decide), length_number]
  simp only [hp, add_link hb, Exec.ok_bind, IsLogical]
  by_cases hx : entryKind (entryAt content e 0) ≠ 0 ∧ entryCount (entryAt content e 0) ≠ 0 <;>
    by_cases h₀ : linkOf content e = 0 <;> by_cases h₁ : b + linkOf content e = e <;>
      simp [h₀, h₁, hx, number_concat]

theorem readChain_unsigned (hc : src.Conforming content) {fuel e b : ℕ} (he : e < 2 ^ 33)
    (hs : ¬Signed content e) :
    (readChain src b fuel e (number volumes) : Exec ε _) = .ok (number volumes) := by
  cases fuel with
  | zero => rfl
  | succ fuel =>
    rw [readChain_succ, mul_sector he, Exec.ok_bind]
    rcases hc.readExactAt_cases (e * SECTOR) (show 0 < SECTOR by decide) with ⟨hl, hr⟩ | ⟨_, _, hr⟩
    · simp only [hr, chainTurn_unsigned hl hs, Exec.ok_bind]
    · rw [hr]

-- One turn of the loop, on a sector that is a boot record.
theorem readChain_step (hc : src.Conforming content) {fuel e b : ℕ} (hb : b < 2 ^ 32) (he : e < 2 ^ 33)
    (hs : Signed content e) :
    (readChain src b (fuel + 1) e (number volumes) : Exec ε _) =
      let listed := volumes ++ if IsLogical (entryAt content e 0) then [mbrVolume content (e, 0)] else []
      if linkOf content e = 0 ∨ b + linkOf content e = e then .ok (number listed)
      else readChain src b fuel (b + linkOf content e) (number listed) := by
  simp only [readChain_succ, mul_sector he, hc.readExactAt_ok hs.1, chainTurn_signed hb he hs, Exec.ok_bind]
  by_cases hl : linkOf content e = 0 ∨ b + linkOf content e = e
  case pos => simp only [if_pos hl]
  case neg => simp only [if_neg hl]

theorem readChain_eq (hc : src.Conforming content) {fuel e b : ℕ} (hb : b < 2 ^ 32) (he : e < 2 ^ 33) :
    (readChain src b fuel e (number volumes) : Exec ε _) =
      .ok (number (volumes ++ (logicalEntries content (ebrFrom content b fuel e)).map (mbrVolume content))) := by
  induction fuel generalizing e volumes with
  | zero => simp [readChain, ebrFrom, Links.walk, logicalEntries]
  | succ fuel hi =>
    by_cases hs : Signed content e
    case neg => simp [readChain_unsigned hc he hs, ebrFrom, hs, logicalEntries]
    case pos =>
      rw [readChain_step hc hb he hs, ebrFrom_succ hs]
      by_cases hl : linkOf content e = 0 ∨ b + linkOf content e = e
      case pos => by_cases hx : IsLogical (entryAt content e 0) <;> simp [hl, logicalEntries, hx]
      case neg =>
        rw [if_neg hl, if_neg hl, hi (add_linkOf_lt hb), logicalEntries_cons, List.map_append, List.append_assoc]
        by_cases hx : IsLogical (entryAt content e 0) <;> simp [hx]

theorem readLogical_eq (hc : src.Conforming content) {b : ℕ} (hb : b < 2 ^ 32) :
    (readLogical src b (number volumes) : Exec ε _) =
      .ok (number (volumes ++ (logicalEntries content (ebrFrom content b 1024 b)).map (mbrVolume content))) :=
  readChain_eq hc hb (by omega)

theorem chainSectors_unsigned (hc : src.Conforming content) {fuel e b : ℕ} (he : e < 2 ^ 33)
    (hs : ¬Signed content e) : (chainSectors src b fuel e : Exec ε _) = .ok [] := by
  cases fuel with
  | zero => rfl
  | succ fuel =>
    rw [chainSectors, mul_sector he, Exec.ok_bind]
    rcases readExactAt_unsigned hc hs with ⟨sector, s₀, s₁, hr, h₀, h₁, hn⟩ | ⟨_, hr⟩
    · simp only [hr, h₀, h₁, Exec.unwrap_some, Exec.ok_bind, if_pos hn]
    · rw [hr]

theorem chainSectors_step (hc : src.Conforming content) {fuel e b : ℕ} (hb : b < 2 ^ 32) (he : e < 2 ^ 33)
    (hs : Signed content e) :
    (chainSectors src b (fuel + 1) e : Exec ε _) =
      if linkOf content e = 0 ∨ b + linkOf content e = e then .ok [e]
      else (e :: ·) <$> chainSectors src b fuel (b + linkOf content e) := by
  obtain ⟨sector, hr, h₀, h₁, _, he₁⟩ := readExactAt_signed (ε := ε) hc hs
  have hl₁ : (entryAt content e 1).length = 16 := length_entryAt hs.1 (by decide)
  have hlink : entryStart (entryAt content e 1) = linkOf content e := rfl
  rw [chainSectors, mul_sector he, Exec.ok_bind, hr]
  simp (disch := omega) only [h₀, h₁, Exec.unwrap_some, Exec.ok_bind, he₁, slice_eq, Nat.reduceSub,
    fromLE_start, hlink]
  rw [if_neg (by decide), add_link hb, Exec.ok_bind]
  by_cases h₀ : linkOf content e = 0 <;> by_cases h₁ : b + linkOf content e = e <;>
    simp [h₀, h₁, map_eq_pure_bind]

theorem chainSectors_eq (hc : src.Conforming content) {fuel e b : ℕ} (hb : b < 2 ^ 32) (he : e < 2 ^ 33) :
    (chainSectors src b fuel e : Exec ε _) = .ok (ebrFrom content b fuel e) := by
  induction fuel generalizing e with
  | zero => simp [chainSectors, ebrFrom, Links.walk]
  | succ fuel hi =>
    by_cases hs : Signed content e
    case neg => rw [chainSectors_unsigned hc he hs, ebrFrom, if_neg hs]
    case pos =>
      rw [chainSectors_step hc hb he hs, ebrFrom_succ hs]
      by_cases hl : linkOf content e = 0 ∨ b + linkOf content e = e
      case pos => rw [if_pos hl, if_pos hl]
      case neg => rw [if_neg hl, if_neg hl, hi (add_linkOf_lt hb), Exec.map_ok]

-- The boot records of a disk are the sectors that the loop gets through.
theorem logicalSectors_eq (hc : src.Conforming content) {b : ℕ} (h : b ∈ (extendedBases content).getLast?) :
    (logicalSectors src b : Exec ε _) = .ok (ebrSectors content) := by
  have hb := lt_of_mem_extendedBases (List.mem_of_getLast? h)
  rw [logicalSectors, chainSectors_eq hc hb (by omega), ebrSectors, Option.mem_def.mp h]

theorem readSlots_range (h : SECTOR ≤ content.length) :
    (((List.range 4).map (entryAt content 0)).foldlM readSlot ([], none) : Exec ε _) =
      .ok (number ((primaryEntries content).map (mbrVolume content)), (extendedBases content).getLast?) := by
  have hr : (((List.range 4).map (entryAt content 0)).foldlM readSlot (number [], none) : Exec ε _) = _ :=
    readSlots_eq h fun _ => List.mem_range.mp
  rw [List.nil_append, Option.or_none] at hr
  exact hr

-- What is listed depends on the sectors that the loop gets through.
theorem readMbr_of_sectors {sectors : List ℕ} (hl : SECTOR ≤ content.length)
    (hr : src.readExactAt 0 SECTOR = .ok (subslice content 0 SECTOR))
    (hnone : (extendedBases content).getLast? = none → sectors = [])
    (hsome : ∀ b, (extendedBases content).getLast? = some b → ∀ volumes,
      (readLogical src b (number volumes) : Exec Unit _) =
        .ok (number (volumes ++ (logicalEntries content sectors).map (mbrVolume content)))) :
    let entries := primaryEntries content ++ logicalEntries content sectors
    readMbr src = if Signed content 0 ∧ entries ≠ [] then .ok (number (entries.map (mbrVolume content)))
      else .err () := by
  intro entries
  have hl₀ : 0 * SECTOR + SECTOR ≤ content.length := by rwa [Nat.zero_mul, Nat.zero_add]
  obtain ⟨s₀, s₁, h₀, h₁, hn⟩ := exists_signature hl₀
  rw [Nat.zero_mul] at h₀ h₁
  simp only [readMbr, hr, Exec.toOption_ok, Exec.ok_bind, h₀, h₁, Exec.unwrap_some]
  by_cases hs : Signed content 0
  case neg => simp [Exec.errIf_pos (hn.mpr hs), hs]
  case pos =>
    have hslice : (slice (subslice content 0 SECTOR) 446 510 : Exec Unit Bytes) = _ :=
      slice_eq (by decide) (by rw [length_subslice_of_le (by rwa [Nat.zero_add])]; decide)
    rw [Exec.errIf_neg fun h => hn.mp h hs, Exec.ok_bind, hslice, Exec.ok_bind, slots_eq hl,
      readSlots_range hl, Exec.ok_bind]
    simp only [hs, true_and]
    cases hx : (extendedBases content).getLast? with
    | none =>
      have hm : entries = primaryEntries content := by simp [entries, hnone hx, logicalEntries]
      rw [hm]
      exact unlessEmpty_eq
    | some b =>
      simp only [hsome b hx, Exec.ok_bind, ← List.map_append]
      exact unlessEmpty_eq

theorem readMbr_eq (hc : src.Conforming content) :
    readMbr src = if Signed content 0 ∧ mbrEntries content ≠ [] then
      .ok (number ((mbrEntries content).map (mbrVolume content))) else .err () := by
  rcases hc.readExactAt_cases 0 (show 0 < SECTOR by decide) with ⟨hl, hr⟩ | ⟨hl, _, hr⟩
  · rw [Nat.zero_add] at hl
    refine readMbr_of_sectors hl hr (fun hx => by simp only [ebrSectors, hx]) fun b hx volumes => ?_
    simp only [ebrSectors, hx]
    exact readLogical_eq hc (lt_of_mem_extendedBases (List.mem_of_getLast? hx))
  · have hs : ¬Signed content 0 := by
      intro hs
      rw [Signed, Nat.zero_mul] at hs
      omega
    simp [readMbr, hr, hs]

-- Reading a disk never panics, and it finds the table that the disk has.
theorem read_eq (hc : src.Conforming content) : read src = .ok (table content) := by
  rw [read, readMbr_eq hc, table]
  by_cases hg : GptUsable content
  case pos => simp [(readGpt_decides hc).ok hg, hg]
  case neg =>
    have ⟨e, he⟩ := (readGpt_decides hc).err hg
    by_cases hm : Signed content 0 ∧ mbrEntries content ≠ []
    case pos => simp [he, hg, hm]
    case neg => simp only [he, if_neg hg, if_neg hm]

end

end Latent.Partition
