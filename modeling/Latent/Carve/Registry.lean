import Latent.Carve.Extractor
import Latent.Source.Basic

open Rust

namespace Latent

structure Counters where
  seen     : ℕ := 0
  accepted : ℕ := 0
  rejected : ℕ := 0
  emitted  : ℕ := 0
  deriving DecidableEq, Repr

-- `fetch_add` wraps around in every profile.
def fetchAdd (counter n : ℕ) : ℕ :=
  (counter + n) % 2 ^ 64

namespace Counters

def see (c : Counters) : Counters :=
  { c with seen := fetchAdd c.seen 1 }

def accept (c : Counters) (emitted : ℕ) : Counters :=
  { c with accepted := fetchAdd c.accepted 1, emitted := fetchAdd c.emitted emitted }

def reject (c : Counters) : Counters :=
  { c with rejected := fetchAdd c.rejected 1 }

end Counters

-- The owner of a pattern is the position of an extractor that contributed it.
structure Registry where
  extractors      : List Extractor
  patterns        : List Bytes
  patternOwner    : List ℕ
  counters        : List Counters
  length_owner    : patternOwner.length = patterns.length
  length_counters : counters.length = extractors.length
  owned           : ∀ {id owner : ℕ} {pattern : Bytes}, patternOwner[id]? = some owner →
    patterns[id]? = some pattern → ∃ e, extractors[owner]? = some e ∧ pattern ∈ e.signatures

namespace Registry

-- `RegistryBuilder::build` over the extractors in their order of registration.
def flattened (extractors : List Extractor) : List (Bytes × ℕ) :=
  extractors.zipIdx.flatMap fun (extractor, index) =>
    extractor.signatures.map fun signature => (signature, index)

def build (extractors : List Extractor) : Registry where
  extractors      := extractors
  patterns        := (flattened extractors).map (·.1)
  patternOwner    := (flattened extractors).map (·.2)
  counters        := extractors.map fun _ => {}
  length_owner    := by simp
  length_counters := by simp
  owned {id owner pattern} ho hp := by
    simp only [List.getElem?_map, Option.map_eq_some_iff] at ho hp
    obtain ⟨entry, he, rfl⟩ := ho
    obtain ⟨_, he', rfl⟩ := hp
    cases he.symm.trans he'
    have hm := List.mem_of_getElem? he
    simp only [flattened, List.mem_flatMap, List.mem_map] at hm
    obtain ⟨⟨extractor, index⟩, hi, signature, hs, rfl⟩ := hm
    exact ⟨extractor, List.mk_mem_zipIdx_iff_getElem?.mp hi, hs⟩

theorem patterns_build (extractors : List Extractor) :
    (build extractors).patterns = extractors.flatMap (·.signatures) := by
  have h : ∀ n, ((extractors.zipIdx n).flatMap fun p => p.1.signatures.map (·, p.2)).map (·.1) =
      extractors.flatMap (·.signatures) := by
    induction extractors with
    | nil => intro n; rfl
    | cons e extractors hi => intro n; simp [hi, Function.comp_def]
  exact h 0

def count (reg : Registry) (owner : ℕ) (f : Counters → Counters) : Registry where
  extractors      := reg.extractors
  patterns        := reg.patterns
  patternOwner    := reg.patternOwner
  counters        := reg.counters.modify owner f
  length_owner    := reg.length_owner
  length_counters := by rw [List.length_modify, reg.length_counters]
  owned           := reg.owned

section

variable [OverflowChecks]

-- A candidate is dispatched to its owner. A rejection, an unknown pattern and a failed read all give
-- the empty list.
def extractHit (reg : Registry) (source : Source) (offset patternId : ℕ) :
    Exec Empty (List Carved × Registry) :=
  match reg.patternOwner[patternId]? with
  | none       => .ok ([], reg)
  | some owner => do
    let extractor ← Exec.unwrap reg.extractors[owner]?
    let reg := reg.count owner .see
    let window := extractor.maxStructureSize
    let remaining := U64.saturatingSub source.size offset
    let want := min window remaining
    match source.readExactAt offset want with
    | .panic  => .panic
    | .err _  => .ok ([], reg.count owner .reject)
    | .ok buf => match extractor.extract offset buf with
      | .panic     => .panic
      | .err _     => .ok ([], reg.count owner .reject)
      | .ok carved => .ok (carved, reg.count owner (.accept · carved.length))

-- The artefacts of a sequence of candidates, given as offset and pattern.
def extractHits (source : Source) : Registry → List (ℕ × ℕ) → Exec Empty (List Carved × Registry)
  | reg, []                          => .ok ([], reg)
  | reg, (offset, patternId) :: hits => do
    let (carved, reg) ← reg.extractHit source offset patternId
    let (rest, reg) ← extractHits source reg hits
    .ok (carved ++ rest, reg)

end
end Registry
end Latent
