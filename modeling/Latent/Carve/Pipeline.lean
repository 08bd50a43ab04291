import Latent.Carve.Registry
import Latent.Scan.Engine

open Rust Search

namespace Latent

-- The artefacts that a rejection stands for.
def accepted {ε α : Type} : Exec ε (List α) → List α
  | .ok l => l
  | _     => []

namespace Extractor

variable {e : Extractor} {content : Bytes}

-- Extraction at every single offset of the content, in order.
def bruteForce (e : Extractor) (content : Bytes) : Exec Empty (List Carved) := do
  let all ← (List.range content.length).mapM fun offset =>
    match e.extract offset (subslice content offset e.maxStructureSize) with
    | .panic     => .panic
    | .err _     => .ok []
    | .ok carved => .ok carved
  .ok all.flatten

def artefactsAt (e : Extractor) (content : Bytes) (offset : ℕ) : List Carved :=
  accepted <| e.extract offset (subslice content offset e.maxStructureSize)

-- The extractor never panics and rejects everything that does not begin with one of its signatures,
-- none of which begins with another one.
structure Anchored (e : Extractor) : Prop where
  total      : ∀ offset data, e.extract offset data ≠ .panic
  rejects    : ∀ offset data, (∀ p ∈ e.signatures, ¬p <+: data) → ∃ r, e.extract offset data = .err r
  prefixFree : ∀ {i j : ℕ} {p q : Bytes}, e.signatures[i]? = some p → e.signatures[j]? = some q →
    p <+: q → i = j

theorem Anchored.bruteForce_eq (h : e.Anchored) :
    e.bruteForce content = .ok ((List.range content.length).flatMap (e.artefactsAt content)) := by
  have hm : ∀ offset ∈ List.range content.length,
      (match e.extract offset (subslice content offset e.maxStructureSize) with
        | .panic     => .panic
        | .err _     => .ok []
        | .ok carved => .ok carved : Exec Empty (List Carved)) = .ok (e.artefactsAt content offset) := by
    intro offset _
    have ht := h.total offset (subslice content offset e.maxStructureSize)
    simp only [artefactsAt]
    cases he : e.extract offset (subslice content offset e.maxStructureSize) with
    | ok carved => rfl
    | err _     => rfl
    | panic     => exact absurd he ht
  rw [bruteForce, Exec.mapM_eq_ok hm, List.flatMap_def]
  rfl

end Extractor

namespace Registry

variable {reg : Registry} {e : Extractor} {source : Source} {content : Bytes} {offset id : ℕ}

-- Hits on the pattern are dispatched to the extractor.
def Routes (reg : Registry) (id : ℕ) (e : Extractor) : Prop :=
  ∃ owner, reg.patternOwner[id]? = some owner ∧ reg.extractors[owner]? = some e

theorem patterns_build_singleton : (build [e]).patterns = e.signatures := by
  simp [patterns_build]

theorem routes_build_singleton (h : id < e.signatures.length) : (build [e]).Routes id e :=
  ⟨0, by simp [build, flattened, h], rfl⟩

variable [OverflowChecks]

theorem extractHit_eq (hr : reg.Routes id e) (hc : source.Conforming content)
    (ho : offset ≤ content.length) (ht : ∀ data, e.extract offset data ≠ .panic) :
    ∃ reg', reg.extractHit source offset id = .ok (e.artefactsAt content offset, reg') ∧
      reg'.extractors = reg.extractors ∧ reg'.patternOwner = reg.patternOwner := by
  obtain ⟨owner, hid, he⟩ := hr
  have hread : source.readExactAt offset (min e.maxStructureSize (content.length - offset)) =
      .ok (subslice content offset (min e.maxStructureSize (content.length - offset))) :=
    hc.readExactAt_ok (by omega)
  rw [subslice_min] at hread
  simp only [extractHit, hid, he, Exec.unwrap_some, Exec.ok_bind, U64.saturatingSub, hc.size_eq, hread,
    Extractor.artefactsAt]
  cases hx : e.extract offset (subslice content offset e.maxStructureSize) with
  | ok carved => exact ⟨_, rfl, rfl, rfl⟩
  | err _     => exact ⟨_, rfl, rfl, rfl⟩
  | panic     => exact absurd hx (ht _)

theorem extractHits_eq {hits : List (ℕ × ℕ)} (hr : ∀ h ∈ hits, reg.Routes h.2 e)
    (hc : source.Conforming content) (ho : ∀ h ∈ hits, h.1 ≤ content.length) (he : e.Anchored) :
    ∃ reg', extractHits source reg hits =
      .ok ((hits.map (·.1)).flatMap (e.artefactsAt content), reg') := by
  induction hits generalizing reg with
  | nil => exact ⟨reg, rfl⟩
  | cons h hits hi =>
    have ⟨reg₁, h₁, hx, hp⟩ :=
      extractHit_eq (hr h (by simp)) hc (ho h (by simp)) (he.total h.1)
    have hr₁ : ∀ h ∈ hits, reg₁.Routes h.2 e := by
      intro h' hm
      have hr := hr h' (List.mem_cons_of_mem _ hm)
      rwa [Routes, ← hx, ← hp] at hr
    have ⟨reg₂, h₂⟩ := hi hr₁ fun h' hm => ho h' (List.mem_cons_of_mem _ hm)
    exact ⟨reg₂, by simp [extractHits, h₁, h₂]⟩

end Registry

namespace Extractor.Anchored

variable {e : Extractor} {content : Bytes} {hits : List Hit}

theorem pattern_unique (h : e.Anchored) {i j pos : ℕ} {p q : Bytes} (hi : e.signatures[i]? = some p)
    (hj : e.signatures[j]? = some q) (hp : OccursAt content p pos) (hq : OccursAt content q pos) : i = j := by
  have hle : pos ≤ content.length := by have := hp.1; omega
  have hp := (occursAt_iff_isPrefix hle).mp hp
  have hq := (occursAt_iff_isPrefix hle).mp hq
  cases List.prefix_or_prefix_of_prefix hp hq with
  | inl hpq => exact h.prefixFree hi hj hpq
  | inr hqp => exact (h.prefixFree hj hi hqp).symm

-- An offset at which no signature occurs yields nothing.
theorem artefactsAt_eq_nil (h : e.Anchored) {offset : ℕ} (ho : offset < content.length)
    (hn : ∀ p ∈ e.signatures, ¬OccursAt content p offset) : e.artefactsAt content offset = [] := by
  have ⟨r, hr⟩ := h.rejects offset (subslice content offset e.maxStructureSize) fun p hp hpre =>
    hn p hp <| (occursAt_iff_isPrefix (Nat.le_of_lt ho)).mpr <| hpre.trans (List.take_prefix ..)
  rw [artefactsAt, hr]
  rfl

-- The offsets of the hits are those at which a signature occurs, each once.
theorem offsets_eq (h : e.Anchored) (hlt : hits.Pairwise (· < ·))
    (hm : ∀ hit, hit ∈ hits ↔ hit.offset < content.length ∧
      ∃ p, e.signatures[hit.patternId]? = some p ∧ OccursAt content p hit.offset) :
    hits.map (·.offset) =
      (List.range content.length).filter fun offset => ∃ p ∈ e.signatures, OccursAt content p offset := by
  refine List.Pairwise.eq_of_mem_iff (r := (· < ·)) ?sorted (List.pairwise_lt_range.filter _) ?same
  case sorted =>
    refine List.pairwise_map.mpr <| hlt.imp_of_mem fun {h₁ h₂} hm₁ hm₂ hlt => ?_
    obtain ⟨_, p, hp, hop⟩ := (hm h₁).mp hm₁
    obtain ⟨_, q, hq, hoq⟩ := (hm h₂).mp hm₂
    cases Hit.lt_iff.mp hlt with
    | inl hlt => exact hlt
    | inr heq =>
      have he := h.pattern_unique hp hq (heq.1 ▸ hop) hoq
      omega
  case same =>
    intro offset
    simp only [List.mem_map, List.mem_filter, List.mem_range, decide_eq_true_eq]
    constructor
    case mp =>
      rintro ⟨hit, hh, rfl⟩
      obtain ⟨hn, p, hp, ho⟩ := (hm hit).mp hh
      exact ⟨hn, p, List.mem_of_getElem? hp, ho⟩
    case mpr =>
      rintro ⟨hn, p, hp, ho⟩
      obtain ⟨id, hid⟩ := List.getElem?_of_mem hp
      exact ⟨{ offset, patternId := id }, (hm _).mpr ⟨hn, p, hid, ho⟩, rfl⟩

theorem flatMap_filter_eq {α β : Type} {l : List α} {q : α → Bool} {f : α → List β}
    (h : ∀ a ∈ l, q a = false → f a = []) : (l.filter q).flatMap f = l.flatMap f := by
  induction l with
  | nil => rfl
  | cons a l hi =>
    have hi := hi fun b hb => h b (List.mem_cons_of_mem _ hb)
    cases hq : q a with
    | true  => simp [hq, hi]
    | false => simp [hq, hi, h a List.mem_cons_self hq]

variable [OverflowChecks] {rt : Runtime} {config : ScanConfig} {source : Source}
variable {s : Scanner (Registry.build [e]).patterns}

-- Scanning for the signatures and extracting at the hits recovers what extraction at every offset
-- would.
theorem recovers (h : e.Anchored) (hnew : Scanner.new rt (Registry.build [e]).patterns config = .ok s)
    (hpool : ∀ threads, rt.buildPool threads = .ok ()) (hc : source.Conforming content)
    (hf : config.Fits content.length)
    (hoverlap : ∀ p ∈ e.signatures, p.length - 1 ≤ config.overlap.toNat) :
    ∃ hits reg', s.scan rt source = .ok hits ∧
      Registry.extractHits source (.build [e]) (hits.map fun h => (h.offset, h.patternId)) =
        .ok ((List.range content.length).flatMap (e.artefactsAt content), reg') := by
  have ⟨plan, hp, hp'⟩ := Scanner.resolve_of_new hnew content.length
  have ⟨hits, hs, hlt, hm⟩ := Scanner.scan_spec hp hpool hc (hf plan hp')
  have hm : ∀ hit, hit ∈ hits ↔ hit.offset < content.length ∧
      ∃ p, e.signatures[hit.patternId]? = some p ∧ OccursAt content p hit.offset := by
    intro hit
    rw [hm, Scanner.sees_iff_of_overlap hp' (Registry.patterns_build_singleton ▸ hoverlap),
      Registry.patterns_build_singleton]
  have hr : ∀ hit ∈ hits.map fun h => (h.offset, h.patternId), (Registry.build [e]).Routes hit.2 e := by
    intro _ hh
    have ⟨hit, hh, he⟩ := List.mem_map.mp hh
    have ⟨_, p, hp, _⟩ := (hm hit).mp hh
    exact he ▸ Registry.routes_build_singleton (List.getElem?_eq_some_iff.mp hp).1
  have ho : ∀ hit ∈ hits.map fun h => (h.offset, h.patternId), hit.1 ≤ content.length := by
    intro _ hh
    have ⟨hit, hh, he⟩ := List.mem_map.mp hh
    exact he ▸ Nat.le_of_lt ((hm hit).mp hh).1
  have ⟨reg', hx⟩ := Registry.extractHits_eq hr hc ho h
  refine ⟨hits, reg', hs, ?_⟩
  rw [hx, List.map_map, Function.comp_def]
  dsimp only
  rw [h.offsets_eq hlt hm, flatMap_filter_eq]
  intro offset hoff hq
  refine h.artefactsAt_eq_nil (List.mem_range.mp hoff) fun p hp ho => ?_
  simp only [decide_eq_false_iff_not] at hq
  exact hq ⟨p, hp, ho⟩

end Extractor.Anchored
end Latent
