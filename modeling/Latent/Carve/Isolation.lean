import Latent.Carve.Accounting

open Rust Search

namespace Latent

namespace Outcome

-- The same outcome, of an extractor in another place.
def under (i : ℕ) : Outcome → Outcome
  | unknown           => unknown
  | panicked _        => panicked i
  | rejected _        => rejected i
  | accepted _ carved => accepted i carved

theorem total_under {o : Outcome} {i j : ℕ} (h : o.owner = some j) (c : Counter) :
    Add.total (o.under i).adds i c = Add.total o.adds j c := by
  cases o with
  | unknown => cases h
  | panicked | rejected | accepted =>
    cases h
    simp [under, adds, Add.share]

theorem carved_under (o : Outcome) (i : ℕ) : (o.under i).carved = o.carved := by
  cases o <;> rfl

-- A call has nothing to do with the counters of other extractors.
theorem total_of_owner_ne {o : Outcome} {i : ℕ} (h : o.owner ≠ some i) (c : Counter) :
    Add.total o.adds i c = 0 := by
  cases o with
  | unknown => rfl
  | panicked owner | rejected owner | accepted owner _ =>
    have hne : owner ≠ i := fun he => h (congrArg some he)
    simp [adds, Add.share, hne]

end Outcome

namespace Registry

variable {extractors : List Extractor} {i j id k : ℕ} {e : Extractor}

-- The number of the first pattern that an extractor contributes.
def firstPattern (extractors : List Extractor) (i : ℕ) : ℕ :=
  ((extractors.take i).map (·.signatures.length)).sum

theorem firstPattern_succ (h : extractors[i]? = some e) :
    firstPattern extractors (i + 1) = firstPattern extractors i + e.signatures.length := by
  obtain ⟨hlt, he⟩ := List.getElem?_eq_some_iff.mp h
  simp [firstPattern, List.take_add_one, h]

theorem firstPattern_mono (h : i ≤ j) : firstPattern extractors i ≤ firstPattern extractors j := by
  induction h with
  | refl => exact Nat.le_refl _
  | @step j _ hi =>
    refine Nat.le_trans hi ?_
    cases he : extractors[j]? with
    | none   => simp [firstPattern, List.take_add_one, he]
    | some e => rw [firstPattern_succ he]; exact Nat.le_add_right ..

theorem length_patterns_build : (build extractors).patterns.length = firstPattern extractors extractors.length := by
  rw [patterns_build, List.length_flatMap, firstPattern, List.take_length]

-- A pattern number that is behind one extractor's first pattern belongs to that extractor.
theorem contributed_unique {e' : Extractor} {k' : ℕ} (h : Contributed extractors id i e k)
    (h' : Contributed extractors id j e' k') : i = j ∧ e = e' ∧ k = k' := by
  have hlt : ∀ {i j : ℕ} {e e' : Extractor} {k k' : ℕ}, Contributed extractors id i e k →
      Contributed extractors id j e' k' → ¬i < j := by
    intro i j e e' k k' h h' hij
    have hm : firstPattern extractors (i + 1) ≤ firstPattern extractors j := firstPattern_mono hij
    rw [firstPattern_succ h.registered] at hm
    have h₁ : id = firstPattern extractors i + k := h.position
    have h₂ : id = firstPattern extractors j + k' := h'.position
    have := h.lt
    omega
  have hij : i = j := Nat.le_antisymm (Nat.not_lt.mp (hlt h' h)) (Nat.not_lt.mp (hlt h h'))
  subst hij
  have hp := h.position.symm.trans h'.position
  exact ⟨rfl, Option.some.inj (h.registered.symm.trans h'.registered), Nat.add_left_cancel hp⟩

-- An extractor owns as many patterns as it has, from its first one on.
theorem owns_iff (he : extractors[i]? = some e) : (build extractors).patternOwner[id]? = some i ↔
    ∃ k < e.signatures.length, id = firstPattern extractors i + k := by
  constructor
  case mp =>
    intro ho
    have hlt : id < (build extractors).patterns.length :=
      (build extractors).length_owner ▸ (List.getElem?_eq_some_iff.mp ho).1
    have ⟨owner, e', k, hk, ho', _⟩ := exists_contributed_build hlt
    cases ho.symm.trans ho'
    cases he.symm.trans hk.registered
    exact ⟨k, hk.lt, hk.position⟩
  case mpr =>
    rintro ⟨k, hlt, rfl⟩
    have hm : firstPattern extractors (i + 1) ≤ firstPattern extractors extractors.length :=
      firstPattern_mono (List.getElem?_eq_some_iff.mp he).1
    rw [firstPattern_succ he, ← length_patterns_build] at hm
    have hid : firstPattern extractors i + k < (build extractors).patterns.length := by omega
    have ⟨owner, e', k', hk, ho, _⟩ := exists_contributed_build hid
    have ⟨hi, _⟩ := contributed_unique ⟨he, rfl, hlt⟩ hk
    rw [ho, hi]

theorem getElem?_patterns_build (he : extractors[i]? = some e) (hk : k < e.signatures.length) :
    (build extractors).patterns[firstPattern extractors i + k]? = e.signatures[k]? := by
  have ho := (owns_iff he).mpr ⟨k, hk, rfl⟩
  have hlt : firstPattern extractors i + k < (build extractors).patterns.length :=
    (build extractors).length_owner ▸ (List.getElem?_eq_some_iff.mp ho).1
  have ⟨owner, e', k', hc, _, hp⟩ := exists_contributed_build hlt
  obtain ⟨rfl, rfl, rfl⟩ := contributed_unique ⟨he, rfl, hk⟩ hc
  exact hp.symm

theorem owner_alone (he : extractors[i]? = some e) {hit : ℕ × ℕ}
    (ho : (build extractors).patternOwner[hit.2]? = some i) :
    (build [e]).patternOwner[hit.2 - firstPattern extractors i]? = some 0 := by
  have ⟨k, hk, hid⟩ := (owns_iff he).mp ho
  refine (owns_iff (i := 0) rfl).mpr ⟨k, hk, ?_⟩
  simp [hid, firstPattern]

section

variable [OverflowChecks] {source : Source}

-- What the hits on an extractor's patterns are for a registry that has only this one.
def alone (extractors : List Extractor) (i : ℕ) (hit : ℕ × ℕ) : ℕ × ℕ :=
  (hit.1, hit.2 - firstPattern extractors i)

theorem outcome_alone (he : extractors[i]? = some e) {hit : ℕ × ℕ}
    (ho : (build extractors).patternOwner[hit.2]? = some i) :
    (build extractors).outcome source hit.1 hit.2 =
      ((build [e]).outcome source (alone extractors i hit).1 (alone extractors i hit).2).under i := by
  have hx : (build extractors).extractors[i]? = some e := he
  have hx₁ : (build [e]).extractors[0]? = some e := rfl
  simp only [outcome, ho, hx, alone, owner_alone he ho, hx₁]
  cases e.onWindow source hit.1 <;> rfl

-- So its calls add to its counters what they would add to them there, and no other call does.
theorem total_alone (he : extractors[i]? = some e) (hits : List (ℕ × ℕ)) (c : Counter) :
    Add.total (hits.flatMap fun hit => ((build extractors).outcome source hit.1 hit.2).adds) i c =
      Add.total ((((build extractors).callsOf i hits).map (alone extractors i)).flatMap fun hit =>
        ((build [e]).outcome source hit.1 hit.2).adds) 0 c := by
  induction hits with
  | nil => rfl
  | cons hit hits hi =>
    have hc : (build extractors).callsOf i (hit :: hits) =
        if (build extractors).patternOwner[hit.2]? = some i then hit :: (build extractors).callsOf i hits
        else (build extractors).callsOf i hits := by
      simp [callsOf, List.filter_cons]
    rw [List.flatMap_cons, Add.total_append, hi, hc]
    by_cases ho : (build extractors).patternOwner[hit.2]? = some i
    case pos =>
      rw [if_pos ho, List.map_cons, List.flatMap_cons, Add.total_append, outcome_alone he ho]
      congr 1
      exact Outcome.total_under ((owner_outcome ..).trans (owner_alone he ho)) c
    case neg =>
      have hn : ((build extractors).outcome source hit.1 hit.2).owner ≠ some i := by rwa [owner_outcome]
      rw [if_neg ho, Outcome.total_of_owner_ne hn, Nat.zero_add]

theorem carved_alone (he : extractors[i]? = some e) (hits : List (ℕ × ℕ)) :
    (((build extractors).callsOf i hits).flatMap fun hit =>
      ((build extractors).outcome source hit.1 hit.2).carved) =
      (((build extractors).callsOf i hits).map (alone extractors i)).flatMap fun hit =>
        ((build [e]).outcome source hit.1 hit.2).carved := by
  rw [List.flatMap_map]
  refine List.flatMap_congr fun hit hm => ?_
  have ho := of_decide_eq_true (List.mem_filter.mp hm).2
  rw [outcome_alone he ho, Outcome.carved_under]

theorem diagnostics_alone (he : extractors[i]? = some e) (hits : List (ℕ × ℕ)) :
    ((hits.flatMap fun hit => ((build extractors).outcome source hit.1 hit.2).adds).foldl perform
      (build extractors)).diagnostics.perExtractor[i]? =
    (((((build extractors).callsOf i hits).map (alone extractors i)).flatMap fun hit =>
      ((build [e]).outcome source hit.1 hit.2).adds).foldl perform (build [e])).diagnostics.perExtractor[0]? := by
  have ⟨stats, hs, hn, h₁, h₂, h₃, h₄⟩ := diagnostics_foldl_perform
    (hits.flatMap fun hit => ((build extractors).outcome source hit.1 hit.2).adds) he
  have he₀ : [e][0]? = some e := rfl
  have ⟨stats', hs', hn', h₁', h₂', h₃', h₄'⟩ := diagnostics_foldl_perform
    ((((build extractors).callsOf i hits).map (alone extractors i)).flatMap fun hit =>
      ((build [e]).outcome source hit.1 hit.2).adds) he₀
  rw [hs, hs']
  simp only [total_alone he] at h₁ h₂ h₃ h₄
  cases stats
  cases stats'
  simp_all

end

def ofHit (hit : Hit) : ℕ × ℕ :=
  (hit.offset, hit.patternId)

-- The hits on an extractor's patterns, numbered as they are without the others, are those of a scan for
-- its patterns only.
theorem hits_alone {content : Bytes} {hits hits' : List Hit} (he : extractors[i]? = some e)
    (hlt : hits.Pairwise (· < ·)) (hm : ∀ h, h ∈ hits ↔ h.offset < content.length ∧
      ∃ pat, (build extractors).patterns[h.patternId]? = some pat ∧ OccursAt content pat h.offset)
    (hlt' : hits'.Pairwise (· < ·)) (hm' : ∀ h, h ∈ hits' ↔ h.offset < content.length ∧
      ∃ pat, e.signatures[h.patternId]? = some pat ∧ OccursAt content pat h.offset) :
    ((build extractors).callsOf i (hits.map ofHit)).map (alone extractors i) = hits'.map ofHit := by
  let shift (h : Hit) : Hit := { h with patternId := h.patternId - firstPattern extractors i }
  have hs : (hits.filter fun h => (build extractors).patternOwner[h.patternId]? = some i).map shift = hits' := by
    refine List.Pairwise.eq_of_mem_iff (r := (· < ·)) ?sorted hlt' ?same
    case sorted =>
      refine List.pairwise_map.mpr <| (hlt.filter _).imp_of_mem fun {h₁ h₂} hm₁ hm₂ hlt => ?_
      have ⟨k₁, _, hk₁⟩ := (owns_iff he).mp (of_decide_eq_true (List.mem_filter.mp hm₁).2)
      have ⟨k₂, _, hk₂⟩ := (owns_iff he).mp (of_decide_eq_true (List.mem_filter.mp hm₂).2)
      rw [Hit.lt_iff] at hlt ⊢
      dsimp only [shift]
      omega
    case same =>
      intro h'
      simp only [List.mem_map, List.mem_filter, decide_eq_true_eq, hm, hm']
      constructor
      case mp =>
        rintro ⟨h, ⟨⟨hn, pat, hp, hocc⟩, ho⟩, rfl⟩
        have ⟨k, hk, hid⟩ := (owns_iff he).mp ho
        rw [hid, getElem?_patterns_build he hk] at hp
        refine ⟨hn, pat, ?_, hocc⟩
        dsimp only [shift]
        rwa [hid, Nat.add_sub_cancel_left]
      case mpr =>
        rintro ⟨hn, pat, hp, hocc⟩
        have hk := (List.getElem?_eq_some_iff.mp hp).1
        refine ⟨{ h' with patternId := firstPattern extractors i + h'.patternId }, ⟨⟨hn, pat, ?_, hocc⟩, ?_⟩, ?_⟩
        · exact (getElem?_patterns_build he hk).trans hp
        · exact (owns_iff he).mpr ⟨_, hk, rfl⟩
        · simp only [shift, Nat.add_sub_cancel_left]
  rw [← hs, callsOf, List.filter_map, List.map_map, List.map_map]
  rfl

section

variable [OverflowChecks] {source : Source}

-- What an extractor contributes to a run does not depend on the ones that are registered besides it, nor on
-- its place among them: scanning for the patterns of all and dispatching the hits, its calls return what
-- they would return if it were alone, in the same order, and its counters are the ones it would then have.
theorem isolated {content : Bytes} {rt rt' : Runtime} {config config' : ScanConfig}
    {s : Scanner (build extractors).patterns} {s' : Scanner (build [e]).patterns}
    (he : extractors[i]? = some e) (hes : ∀ e ∈ extractors, e.NeverPanics)
    (hnew : Scanner.new rt (build extractors).patterns config = .ok s)
    (hnew' : Scanner.new rt' (build [e]).patterns config' = .ok s')
    (hpool : ∀ threads, rt.buildPool threads = .ok ()) (hpool' : ∀ threads, rt'.buildPool threads = .ok ())
    (hc : source.Conforming content) (hf : config.Fits content.length) (hf' : config'.Fits content.length)
    (hoverlap : ∀ p ∈ (build extractors).patterns, p.length - 1 ≤ config.overlap.toNat)
    (hoverlap' : ∀ p ∈ e.signatures, p.length - 1 ≤ config'.overlap.toNat) :
    ∃ hits hits' carved carved' reg reg', s.scan rt source = .ok hits ∧ s'.scan rt' source = .ok hits' ∧
      extractHits source (build extractors) (hits.map ofHit) = .ok (carved, reg) ∧
      extractHits source (build [e]) (hits'.map ofHit) = .ok (carved', reg') ∧
      carved = (hits.map ofHit).flatMap ((build extractors).returned source) ∧
      ((build extractors).callsOf i (hits.map ofHit)).flatMap ((build extractors).returned source) = carved' ∧
      reg.diagnostics.perExtractor[i]? = reg'.diagnostics.perExtractor[0]? := by
  have ⟨plan, hp, hres⟩ := Scanner.resolve_of_new hnew content.length
  have ⟨plan', hp', hres'⟩ := Scanner.resolve_of_new hnew' content.length
  have ⟨hits, hscan, hlt, hm⟩ := Scanner.scan_spec hp hpool hc (hf plan hres)
  have ⟨hits', hscan', hlt', hm'⟩ := Scanner.scan_spec hp' hpool' hc (hf' plan' hres')
  have hone : ∀ p ∈ (build [e]).patterns, p.length - 1 ≤ config'.overlap.toNat := by
    rwa [patterns_build_singleton]
  have halone := hits_alone he hlt (fun h => (hm h).trans (Scanner.sees_iff_of_overlap hres hoverlap h)) hlt'
    fun h => by rw [hm', Scanner.sees_iff_of_overlap hres' hone, patterns_build_singleton]
  have hs := hc.neverPanics
  have hes' : ∀ e' ∈ (build [e]).extractors, e'.NeverPanics := by
    intro e' hm
    cases List.mem_singleton.mp hm
    exact hes e (List.mem_of_getElem? he)
  have hret : (build extractors).returned source = fun hit =>
      ((build extractors).outcome source hit.1 hit.2).carved :=
    funext (returned_eq hs hes)
  refine ⟨hits, hits', _, _, _, _, hscan, hscan', extractHits_eq_outcomes hs hes _,
    extractHits_eq_outcomes hs hes' _, ?_, ?_, ?_⟩
  · rw [hret]
  · rw [hret, carved_alone he, halone]
  · rw [diagnostics_alone he, halone]

end

section

attribute [local instance] Sha256.standard OverflowChecks.on

-- One of three extractors, which shares a pattern with another one.
theorem isolated_marker :
    let e := marker "c" [[65], [66]]
    let extractors := [marker "a" [[65]], marker "b" [], e]
    ∃ (hits hits' : List Hit) (carved carved' : List Carved) (reg reg' : Registry),
      extractHits (rawSource [65, 66]) (build extractors) (hits.map ofHit) = .ok (carved, reg) ∧
      extractHits (rawSource [65, 66]) (build [e]) (hits'.map ofHit) = .ok (carved', reg') ∧
      ((build extractors).callsOf 2 (hits.map ofHit)).flatMap
        ((build extractors).returned (rawSource [65, 66])) = carved' ∧
      reg.diagnostics.perExtractor[2]? = reg'.diagnostics.perExtractor[0]? := by
  intro e extractors
  have hes : ∀ e ∈ extractors, e.NeverPanics := by
    intro e h
    simp only [extractors, List.mem_cons, List.not_mem_nil, or_false] at h
    rcases h with rfl | rfl | rfl <;> exact neverPanics_marker _ _
  have hc : (rawSource [65, 66]).Conforming [65, 66] := rawSource_conforming (by decide)
  have hnew : Scanner.new naiveRuntime (build extractors).patterns ⟨2, 1, 1, 16⟩ = .ok _ := rfl
  have hnew' : Scanner.new naiveRuntime (build [e]).patterns ⟨1, 1, 1, 16⟩ = .ok _ := rfl
  have hpool : ∀ threads, naiveRuntime.buildPool threads = .ok () := fun _ => rfl
  have hi : extractors[2]? = some e := rfl
  have hf : ScanConfig.Fits ⟨2, 1, 1, 16⟩ 2 := ScanConfig.fits_of_lt (by decide)
  have hf' : ScanConfig.Fits ⟨1, 1, 1, 16⟩ 2 := ScanConfig.fits_of_lt (by decide)
  have ⟨hits, hits', carved, carved', reg, reg', _, _, h, h', _, hcarved, hdiag⟩ :=
    isolated hi hes hnew hnew' hpool hpool hc hf hf' (by decide) (by decide)
  exact ⟨hits, hits', carved, carved', reg, reg', h, h', hcarved, hdiag⟩

end

end Registry
end Latent
