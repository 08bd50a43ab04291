import Latent.Source.Raw
import Latent.Source.Partition.Read

open Rust

namespace Latent.Partition

-- The chain of extended boot records from `base` on. Its links count from the base, and a zero link
-- ends it.
structure EbrChain (content : Bytes) (base : ℕ) (chain : List ℕ) : Prop where
  head   : chain.head? = some base
  signed : ∀ e ∈ chain, Signed content e
  linked : chain.IsChain fun e e' => linkOf content e ≠ 0 ∧ e' = base + linkOf content e
  ended  : ∀ e ∈ chain.getLast?, linkOf content e = 0
  nodup  : chain.Nodup
  length : chain.length ≤ 1024

-- At most one of the slots is extended, and one that is has a chain.
inductive Chained (content : Bytes) : (bases chain : List ℕ) → Prop
  | none : Chained content [] []
  | one {base chain} : EbrChain content base chain → Chained content [base] chain

structure MbrDisk (content : Bytes) (chain : List ℕ) : Prop where
  noGpt   : ¬GptUsable content
  signed  : Signed content 0
  chained : Chained content (extendedBases content) chain

variable {content : Bytes} {base : ℕ} {chain : List ℕ}

theorem EbrChain.follow_linked (h : EbrChain content base chain) :
    chain.IsChain fun e e' => follow content base e = some e' := by
  rw [List.isChain_iff_getElem]
  intro i hi
  have ⟨h₀, hn⟩ := h.linked.getElem i hi
  have hne : chain[i + 1] ≠ chain[i] := by
    intro he
    exact Nat.succ_ne_self i (h.nodup.getElem_inj_iff.mp he)
  have hs : Signed content chain[i + 1] := h.signed _ (List.getElem_mem hi)
  rw [hn] at hne hs
  rw [hn, follow, if_neg]
  rintro (hz | he | hu)
  · exact h₀ hz
  · exact hne he
  · exact hu hs

-- The walk visits the chain, all of it and in order.
theorem EbrChain.ebrFrom_eq (h : EbrChain content base chain) : ebrFrom content base 1024 base = chain := by
  cases chain with
  | nil => cases h.head
  | cons e chain =>
    cases h.head
    rw [ebrFrom, if_pos (h.signed base List.mem_cons_self)]
    refine Links.walk_eq_of_isChain h.follow_linked (fun e he => ?_) h.length
    exact if_pos (.inl (h.ended e he))

theorem Chained.ebrSectors_eq (h : Chained content (extendedBases content) chain) :
    ebrSectors content = chain := by
  rw [ebrSectors]
  generalize extendedBases content = bases at h
  cases h with
  | none  => rfl
  | one h => exact h.ebrFrom_eq

theorem lt_of_mem_ebrSectors : ∀ e ∈ ebrSectors content, e < 2 ^ 33 := by
  rw [ebrSectors]
  split
  case h_2 => simp
  case h_1 base hb =>
    have hb := lt_of_mem_extendedBases (List.mem_of_getLast? hb)
    rw [ebrFrom]
    split
    case isFalse => simp
    case isTrue =>
      refine Links.forall_mem_walk (by omega) fun e e' he => ?_
      rw [follow] at he
      split at he <;> cases he
      exact add_linkOf_lt hb

theorem lt_of_mem_mbrEntries : ∀ p ∈ mbrEntries content, p.1 < 2 ^ 33 := by
  refine List.forall_mem_append.mpr ⟨?primary, ?logical⟩
  case primary =>
    intro p hp
    have ⟨_, _, he⟩ := List.mem_map.mp hp
    rw [← he]
    exact Nat.two_pow_pos 33
  case logical =>
    intro p hp
    have ⟨e, hf, he⟩ := List.mem_map.mp hp
    rw [← he]
    exact lt_of_mem_ebrSectors e (List.mem_of_mem_filter hf)

theorem read_mbrDisk [OverflowChecks] {src : Source} (hc : src.Conforming content)
    (h : MbrDisk content chain) :
    let entries := primaryEntries content ++ logicalEntries content chain
    (read src = .ok (
      if entries = [] then { scheme := .none, partitions := [] }
      else { scheme := .mbr, partitions := number (entries.map (mbrVolume content)) })) ∧
        ∀ p ∈ entries, (mbrVolume content p).start < 2 ^ 64 ∧ (mbrVolume content p).length < 2 ^ 64 := by
  have he : mbrEntries content = primaryEntries content ++ logicalEntries content chain := by
    rw [mbrEntries, h.chained.ebrSectors_eq]
  rw [← he]
  refine ⟨?_, fun p hp => mbrVolume_fits (lt_of_mem_mbrEntries p hp)⟩
  rw [read_eq hc, table, if_neg h.noGpt]
  by_cases hn : mbrEntries content = [] <;> simp [hn, h.signed]

def mbrEntry (kind : UInt8) (start count : ℕ) : Bytes :=
  [0, 0, 0, 0, kind, 0, 0, 0] ++ (Bytes.toLE 4 start ++ Bytes.toLE 4 count)

def tableSector (entries : Bytes) : Bytes :=
  Bytes.zeros 446 ++ (entries ++ (Bytes.zeros (64 - entries.length) ++ [0x55, 0xAA]))

-- One primary volume and two boot records, the first of which has an empty slot.
def mbrImage : Bytes :=
  tableSector (mbrEntry 0x83 1 1 ++ mbrEntry 0x0F 2 2) ++ (Bytes.zeros 512 ++
    (tableSector (mbrEntry 0x00 0 0 ++ mbrEntry 0x05 1 1) ++ tableSector (mbrEntry 0x07 0 1)))

theorem mbrImage_mbrDisk : MbrDisk mbrImage [2, 3] where
  noGpt   := fun h => absurd h.signature (by decide +kernel)
  signed  := by decide +kernel
  chained := by
    have hb : extendedBases mbrImage = [2] := by decide +kernel
    rw [hb]
    refine .one ⟨rfl, by decide +kernel, ?_, by decide +kernel, by decide, by decide⟩
    exact List.isChain_cons_cons.mpr ⟨by decide +kernel, List.isChain_singleton _⟩

section

attribute [local instance] OverflowChecks.on

theorem read_mbrDisk_mbrImage : read (rawSource mbrImage) = .ok {
    scheme     := .mbr
    partitions := [
      { index := 0, kind := ['0', 'x', '8', '3'], start := 512, length := 512, name := none },
      { index := 1, kind := ['0', 'x', '0', '7'], start := 1536, length := 512, name := none }
    ]
  } := by
  have hc : (rawSource mbrImage).Conforming mbrImage := rawSource_conforming (by decide +kernel)
  rw [(read_mbrDisk hc mbrImage_mbrDisk).1]
  decide +kernel

end

end Latent.Partition
