import Latent.Carve.Diagnostics
import Latent.Core.Sha256

open Rust

namespace Latent.Registry

variable {extractors : List Extractor} {reg : Registry} {source : Source} {i id : ℕ}

-- The pattern at a position of the flattened list is one that this extractor contributed, after the
-- patterns of all extractors that were registered before it.
structure Contributed (extractors : List Extractor) (id owner : ℕ) (e : Extractor) (k : ℕ) : Prop where
  registered : extractors[owner]? = some e
  position   : id = ((extractors.take owner).map (·.signatures.length)).sum + k
  lt         : k < e.signatures.length

theorem exists_contributed {n : ℕ} {entry : Bytes × ℕ}
    (h : ((extractors.zipIdx n).flatMap fun (e, index) => e.signatures.map (·, index))[id]? = some entry) :
    ∃ owner e k, Contributed extractors id owner e k ∧ entry.2 = n + owner ∧
      e.signatures[k]? = some entry.1 := by
  induction extractors generalizing n id with
  | nil => simp at h
  | cons e extractors hi =>
    rw [List.zipIdx_cons, List.flatMap_cons, List.getElem?_append, List.length_map] at h
    split at h
    case isTrue hlt =>
      rw [List.getElem?_map, List.getElem?_eq_getElem hlt] at h
      cases h
      exact ⟨0, e, id, ⟨rfl, by simp, hlt⟩, rfl, List.getElem?_eq_getElem hlt⟩
    case isFalse hge =>
      have ⟨owner, e', k, hk, ho, hs⟩ := hi h
      refine ⟨owner + 1, e', k, ⟨hk.registered, ?_, hk.lt⟩, by omega, hs⟩
      have := hk.position
      simp only [List.take_succ_cons, List.map_cons, List.sum_cons]
      omega

theorem exists_contributed_build (h : id < (build extractors).patterns.length) :
    ∃ owner e k, Contributed extractors id owner e k ∧ (build extractors).patternOwner[id]? = some owner ∧
      e.signatures[k]? = (build extractors).patterns[id]? := by
  have hl : id < (flattened extractors).length := by simpa [build] using h
  obtain ⟨owner, e, k, hk, ho, hs⟩ := exists_contributed (List.getElem?_eq_getElem hl)
  refine ⟨owner, e, k, hk, ?_, ?_⟩
  · simp [build, hl, ho]
  · simp [build, hl, hs]

theorem counters_build (i : ℕ) {c : Counters} (h : (build extractors).counters[i]? = some c) : c = {} := by
  obtain ⟨_, _, he⟩ := Option.map_eq_some_iff.mp ((List.getElem?_map ..).symm.trans h)
  exact he.symm

theorem get_counters_build {c : Counters} (h : c ∈ (build extractors).counters) (k : Counter) :
    c.get k < 2 ^ 64 := by
  have ⟨i, hi⟩ := List.getElem?_of_mem h
  rw [counters_build i hi]
  cases k <;> decide

theorem diagnostics_foldl_perform (adds : List Add) {e : Extractor} (he : extractors[i]? = some e) :
    ∃ stats, (adds.foldl perform (build extractors)).diagnostics.perExtractor[i]? = some stats ∧
      stats.name = e.metadata.name ∧ stats.seen = Add.total adds i .seen % 2 ^ 64 ∧
      stats.accepted = Add.total adds i .accepted % 2 ^ 64 ∧
      stats.rejected = Add.total adds i .rejected % 2 ^ 64 ∧
      stats.emitted = Add.total adds i .emitted % 2 ^ 64 := by
  have hc : (build extractors).counters[i]? = some {} := by
    rw [build, List.getElem?_map, he]
    rfl
  obtain ⟨c, hc, hk⟩ := counters_foldl_perform adds hc (get_counters_build (List.mem_of_getElem? hc))
  have hz : ∀ k, c.get k = Add.total adds i k % 2 ^ 64 := by
    intro k
    rw [hk]
    cases k <;> rw [Counters.get, Nat.zero_add]
  refine ⟨c.stats e.metadata.name, ?_, rfl, hz .seen, hz .accepted, hz .rejected, hz .emitted⟩
  rw [diagnostics, List.getElem?_map, (List.getElem?_zip_eq_some (z := (e, c))).mpr ⟨?_, hc⟩, Option.map_some]
  rw [extractors_foldl_perform]
  exact he

section

variable [OverflowChecks]

-- What a single call returns.
def returned (reg : Registry) (source : Source) (hit : ℕ × ℕ) : List Carved :=
  match reg.extractHit source hit.1 hit.2 with
  | .ok (carved, _) => carved
  | _               => []

def callsOf (reg : Registry) (i : ℕ) (hits : List (ℕ × ℕ)) : List (ℕ × ℕ) :=
  hits.filter fun hit => reg.patternOwner[hit.2]? = some i

-- What the counters of an extractor say after these calls. They are `u64` values that wrap around.
structure Accounted (reg : Registry) (source : Source) (hits : List (ℕ × ℕ)) (i : ℕ)
    (stats : ExtractorStats) : Prop where
  seen          : stats.seen = (reg.callsOf i hits).length % 2 ^ 64
  decided       : (stats.accepted + stats.rejected) % 2 ^ 64 = stats.seen
  emitted       : stats.emitted = ((reg.callsOf i hits).flatMap (reg.returned source)).length % 2 ^ 64
  decided_exact : (reg.callsOf i hits).length < 2 ^ 64 → stats.accepted + stats.rejected = stats.seen

theorem owner_outcome (reg : Registry) (source : Source) (offset id : ℕ) :
    (reg.outcome source offset id).owner = reg.patternOwner[id]? := by
  cases ho : reg.patternOwner[id]? with
  | none => simp [outcome, ho, Outcome.owner]
  | some owner =>
    obtain ⟨e, hx⟩ := exists_owner ho
    simp only [outcome, ho, hx]
    split <;> rfl

section

variable (hs : source.NeverPanics) (he : ∀ e ∈ reg.extractors, e.NeverPanics)

include hs he

theorem returned_eq (hit : ℕ × ℕ) : reg.returned source hit = (reg.outcome source hit.1 hit.2).carved := by
  rw [returned, extractHit_eq_outcome hs he]

theorem returned_of_owner {owner : ℕ} {e : Extractor} (ho : reg.patternOwner[id]? = some owner)
    (hx : reg.extractors[owner]? = some e) (offset : ℕ) :
    reg.returned source (offset, id) = accepted (e.onWindow source offset) := by
  rw [returned_eq hs he]
  simp only [outcome, ho, hx]
  cases e.onWindow source offset <;> rfl

theorem total_calls (hits : List (ℕ × ℕ)) :
    let adds := hits.flatMap fun hit => (reg.outcome source hit.1 hit.2).adds
    Add.total adds i .seen = (reg.callsOf i hits).length ∧
      Add.total adds i .accepted + Add.total adds i .rejected = Add.total adds i .seen ∧
        Add.total adds i .emitted = ((reg.callsOf i hits).flatMap (reg.returned source)).length := by
  induction hits with
  | nil => exact ⟨rfl, rfl, rfl⟩
  | cons hit hits hi =>
    have ⟨h₁, h₂, h₃⟩ := hi
    have ho := owner_outcome reg source hit.1 hit.2
    have hd := Outcome.total_decided (i := i) (outcome_ne_panicked hs he hit.1 hit.2)
    simp only [List.flatMap_cons, Add.total_append, Outcome.total_seen, Outcome.total_emitted, callsOf,
      List.filter_cons, ho] at hd h₁ h₂ h₃ ⊢
    by_cases hp : reg.patternOwner[hit.2]? = some i
    case pos =>
      simp only [hp, if_true, decide_true, List.length_cons, List.flatMap_cons, List.length_append,
        returned_eq hs he] at hd h₃ ⊢
      omega
    case neg =>
      simp only [hp, if_false, decide_false] at hd ⊢
      simp only [Bool.false_eq_true, if_false]
      omega

end

theorem accounting (hs : source.NeverPanics) (he : ∀ e ∈ extractors, e.NeverPanics) :
    (build extractors).patterns = extractors.flatMap (·.signatures) ∧
    (∀ id, id < (build extractors).patterns.length →
      ∃ owner e k, Contributed extractors id owner e k ∧
        e.signatures[k]? = (build extractors).patterns[id]? ∧
        (build extractors).patternOwner[id]? = some owner ∧
        ∀ offset, (build extractors).returned source (offset, id) = accepted (e.onWindow source offset)) ∧
    (∀ hits, ∃ carved reg', extractHits source (build extractors) hits = .ok (carved, reg') ∧
      carved = hits.flatMap ((build extractors).returned source) ∧
      (∀ i e, extractors[i]? = some e → ∃ stats, reg'.diagnostics.perExtractor[i]? = some stats ∧
        stats.name = e.metadata.name ∧ (build extractors).Accounted source hits i stats) ∧
      ∀ hits', hits.Perm hits' → ∃ carved' reg'', extractHits source (build extractors) hits' =
        .ok (carved', reg'') ∧ reg''.diagnostics = reg'.diagnostics ∧ carved.Perm carved') ∧
    (∀ (reg : Registry) offset id, reg.patterns.length ≤ id → reg.extractHit source offset id = .ok ([], reg)) := by
  have hb : ∀ e ∈ (build extractors).extractors, e.NeverPanics := he
  refine ⟨patterns_build extractors, ?routing, ?run, ?unknown⟩
  case routing =>
    intro id hid
    have ⟨owner, e, k, hk, ho, hp⟩ := exists_contributed_build hid
    exact ⟨owner, e, k, hk, hp, ho, returned_of_owner hs hb ho hk.registered⟩
  case run =>
    intro hits
    refine ⟨_, _, extractHits_eq_outcomes hs hb hits, ?_, ?_, ?_⟩
    · exact congrArg hits.flatMap (funext fun hit => (returned_eq hs hb hit).symm)
    · intro i e hx
      have ⟨stats, hd, hn, h₁, h₂, h₃, h₄⟩ := diagnostics_foldl_perform
        (hits.flatMap fun hit => ((build extractors).outcome source hit.1 hit.2).adds) hx
      have ⟨ht₁, ht₂, ht₃⟩ := total_calls hs hb (i := i) hits
      refine ⟨stats, hd, hn, by rw [h₁, ht₁], ?_, by rw [h₄, ht₃], fun hlt => ?_⟩
      · rw [h₁, h₂, h₃, ← Nat.add_mod, ht₂]
      · rw [h₁, h₂, h₃]
        omega
    · intro hits' hp
      refine ⟨_, _, extractHits_eq_outcomes hs hb hits', ?_, hp.flatMap_right _⟩
      simp only [diagnostics, extractors_foldl_perform]
      rw [counters_perm (hp.symm.flatMap_right _) fun c hc => get_counters_build hc]
  case unknown =>
    intro reg offset id hid
    have hn : reg.patternOwner[id]? = none := List.getElem?_eq_none (reg.length_owner ▸ hid)
    simp only [extractHit, hn]

end

attribute [local instance] Sha256.standard OverflowChecks.on

-- An extractor that accepts a single byte.
def marker (name : String) (signatures : List Bytes) : Extractor where
  metadata         := { name, platform := .crossPlatform, method := "carve.marker" }
  signatures       := signatures
  maxStructureSize := 1
  extract offset data :=
    if data = [65] then .ok [.new offset "marker" "carve.marker" data] else .err .notThisFormat

theorem neverPanics_marker (name : String) (signatures : List Bytes) : (marker name signatures).NeverPanics := by
  intro offset data
  simp only [marker]
  split <;> simp

-- Two extractors share a signature, one has none, and the last candidate has a pattern of nobody.
theorem accounting_markers :
    let reg := build [marker "a" [[65]], marker "b" [], marker "c" [[65], [66]]]
    ∃ carved reg', extractHits (rawSource [65, 66]) reg [(0, 0), (0, 1), (1, 2), (0, 3)] = .ok (carved, reg') ∧
      ∃ stats, reg'.diagnostics.perExtractor[2]? = some stats ∧ stats.seen = 2 ∧
        stats.accepted + stats.rejected = 2 := by
  have hc : (rawSource [65, 66]).Conforming [65, 66] := rawSource_conforming (by decide)
  have he : ∀ e ∈ [marker "a" [[65]], marker "b" [], marker "c" [[65], [66]]], e.NeverPanics := by
    intro e h
    simp only [List.mem_cons, List.not_mem_nil, or_false] at h
    rcases h with rfl | rfl | rfl <;> exact neverPanics_marker _ _
  have ⟨carved, reg', hr, _, hs, _⟩ :=
    (accounting hc.neverPanics he).2.2.1 [(0, 0), (0, 1), (1, 2), (0, 3)]
  have ⟨stats, hd, _, ha⟩ := hs 2 (marker "c" [[65], [66]]) rfl
  have h₁ : stats.seen = 2 := ha.seen
  exact ⟨carved, reg', hr, stats, hd, h₁, (ha.decided_exact (by decide)).trans h₁⟩

end Latent.Registry
