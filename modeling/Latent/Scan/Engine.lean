import Latent.Scan.Plan
import Latent.Search.Occurrence
import Latent.Source.Raw
import Mathlib.Data.List.Sort
import Mathlib.Data.Prod.Lex

open Rust Search

namespace Latent

structure Hit where
  offset    : ℕ
  patternId : ℕ
  deriving DecidableEq, Repr

namespace Hit

-- Hits are ordered by offset first and by pattern second.
instance : LinearOrder Hit :=
  LinearOrder.lift' (fun h => toLex (h.offset, h.patternId)) fun ⟨_, _⟩ ⟨_, _⟩ h => by
    cases h
    rfl

theorem lt_iff {h₁ h₂ : Hit} :
    h₁ < h₂ ↔ h₁.offset < h₂.offset ∨ h₁.offset = h₂.offset ∧ h₁.patternId < h₂.patternId :=
  Prod.Lex.toLex_lt_toLex

theorem lt_of_div_lt {h₁ h₂ : Hit} {k : ℕ} (h : h₁.offset / k < h₂.offset / k) : h₁ < h₂ :=
  lt_iff.mpr <| .inl <| Nat.lt_of_div_lt_div h

end Hit

-- What the scanner gets from the libraries below it: an automaton or the reason why there is none
-- for the patterns, a thread pool, and the order in which the blocks of a scan complete.
structure Runtime where
  buildAutomaton  : (patterns : List Bytes) → Exec String (AhoCorasick patterns)
  buildPool       : (threads : ℕ) → Exec String Unit
  completion      : (blocks : ℕ) → List ℕ
  completion_perm : ∀ blocks, (completion blocks).Perm (List.range blocks)

namespace Runtime

variable {ε β : Type} {rt : Runtime}

-- `collect` on a parallel range: the first block to complete without a result decides, and if there
-- is none, the results come back in the order of the blocks.
def collect (rt : Runtime) (blocks : ℕ) (f : ℕ → Exec ε β) : Exec ε (List β) := do
  let _ ← (rt.completion blocks).mapM f
  (List.range blocks).mapM f

theorem collect_eq_ok {blocks : ℕ} {f : ℕ → Exec ε β} {g : ℕ → β}
    (h : ∀ b, b < blocks → f b = .ok (g b)) :
    rt.collect blocks f = .ok ((List.range blocks).map g) := by
  have hr : ∀ b ∈ List.range blocks, f b = .ok (g b) := fun b hb => h b (List.mem_range.mp hb)
  have hc : ∀ b ∈ rt.completion blocks, f b = .ok (g b) := fun b hb =>
    hr b ((rt.completion_perm blocks).mem_iff.mp hb)
  rw [collect, Exec.mapM_eq_ok hc, Exec.mapM_eq_ok hr]
  rfl

end Runtime

structure Scanner (patterns : List Bytes) where
  ac     : AhoCorasick patterns
  config : ScanConfig

namespace Scanner

variable {patterns : List Bytes} {s : Scanner patterns} {source : Source} {content : Bytes}
variable {plan : Plan} {L : Blocks} {b : ℕ} {rt : Runtime} {config : ScanConfig}

-- The hits that a block reports, over exact integers.
def blockHits (s : Scanner patterns) (content : Bytes) (L : Blocks) (b : ℕ) : List Hit :=
  let buf := subslice content (L.start b) (L.readEnd b - L.start b)
  (((s.ac.findOverlapping buf).filter fun m => m.start < L.ownedEnd b - L.start b).map fun m =>
    { offset := L.start b + m.start, patternId := m.pattern }).insertionSort (· ≤ ·)

-- The owner of the hit's offset sees all of the hit.
def Sees (patterns : List Bytes) (content : Bytes) (L : Blocks) (h : Hit) : Prop :=
  h.offset < content.length ∧ ∃ pat, patterns[h.patternId]? = some pat ∧
    OccursAt content pat h.offset ∧ L.Covers h.offset pat.length

theorem mem_blockHits (hs : L.size = content.length) (hb : b < L.count) {h : Hit} :
    h ∈ s.blockHits content L b ↔ Sees patterns content L h ∧ h.offset / L.block = b := by
  have hlt := Blocks.lt_count_iff.mp hb
  have hle := Blocks.start_le_ownedEnd hb
  have hre := L.ownedEnd_le_readEnd (b := b)
  have hrs := L.readEnd_le (b := b)
  have hl : L.start b + (L.readEnd b - L.start b) ≤ content.length := by omega
  simp only [blockHits, List.mem_insertionSort, List.mem_map, List.mem_filter, s.ac.mem_iff, IsMatch,
    occursAt_subslice hl, decide_eq_true_eq, Sees]
  constructor
  case mp =>
    rintro ⟨m, ⟨⟨pat, hp, ho, hv⟩, hm⟩, rfl⟩
    have ⟨hn, hd⟩ := (L.owned_iff (b := b)).mp ⟨Nat.le_add_right _ m.start, by omega⟩
    have hv : L.Covers (L.start b + m.start) pat.length := by
      refine (L.le_readEnd_iff (hs ▸ ho.1)).mp ?_
      rw [hd]
      omega
    exact ⟨⟨hs ▸ hn, pat, hp, ho, hv⟩, hd⟩
  case mpr =>
    intro ⟨⟨hn, pat, hp, ho, hv⟩, hd⟩
    have ⟨h₁, h₂⟩ := L.owned_iff.mpr ⟨hs ▸ hn, hd⟩
    have hv := (L.le_readEnd_iff (hs ▸ ho.1)).mpr hv
    rw [hd] at hv
    have he : L.start b + (h.offset - L.start b) = h.offset := by omega
    refine ⟨{ pattern := h.patternId, start := h.offset - L.start b }, ?_, by simp [he]⟩
    simp only [he]
    exact ⟨⟨pat, hp, ho, by omega⟩, by omega⟩

theorem pairwise_blockHits : (s.blockHits content L b).Pairwise (· < ·) := by
  have hn : (s.blockHits content L b).Nodup := by
    refine (List.perm_insertionSort ..).nodup_iff.mpr <| ((s.ac.nodup _).filter _).map fun m₁ m₂ h => ?_
    have ⟨ho, hp⟩ := Hit.mk.inj h
    cases m₁; cases m₂
    exact Match.mk.injEq .. |>.mpr ⟨hp, Nat.add_left_cancel ho⟩
  exact ((List.pairwise_insertionSort ..).and hn).imp fun ⟨hle, hne⟩ => lt_of_le_of_ne hle hne

section

variable [OverflowChecks]

def new (rt : Runtime) (patterns : List Bytes) (config : ScanConfig) :
    Exec ScanError (Scanner patterns) := do
  Exec.errIf (patterns = []) .noPatterns
  let _ ← Plan.resolve config 0
  let ac ← (rt.buildAutomaton patterns).mapErr fun e => .invalidConfig s!"pattern set is invalid: {e}"
  .ok { ac, config }

def hitAt (start : ℕ) (m : Match) : Exec ScanError Hit := do
  let offset ← U64.add start m.start
  .ok { offset, patternId := m.pattern }

def scanBlock (s : Scanner patterns) (source : Source) (plan : Plan) (block : ℕ) :
    Exec ScanError (List Hit) := do
  let start ← U64.mul block plan.blockSize
  let ownedEnd := min (← U64.add start plan.blockSize) plan.sourceSize
  let readEnd := min (← U64.add ownedEnd plan.overlap) plan.sourceSize
  let len ← U64.sub readEnd start
  let buf ← (source.readExactAt start len).mapErr .source
  let ownedLen ← U64.sub ownedEnd start
  let hits ← ((s.ac.findOverlapping buf).filter fun m => m.start < ownedLen).mapM (hitAt start)
  .ok (hits.insertionSort (· ≤ ·))

def scan (rt : Runtime) (s : Scanner patterns) (source : Source) : Exec ScanError (List Hit) := do
  let sourceSize := source.size
  let plan ← Plan.resolve s.config sourceSize
  if plan.blockCount = 0 then
    .ok []
  else
    (rt.buildPool plan.workerThreads).mapErr fun e => .invalidConfig s!"thread pool: {e}"
    let perBlock ← rt.collect plan.blockCount (s.scanBlock source plan)
    .ok perBlock.flatten

variable {s : Scanner patterns} {source : Source} {content : Bytes} {plan : Plan} {L : Blocks} {b : ℕ}

-- The offset of a hit in the owned part of a block is exact.
theorem mapM_hitAt {start owned : ℕ} {ms : List Match} (h : start + owned < 2 ^ 64) :
    (ms.filter fun m => m.start < owned).mapM (hitAt start) =
      .ok ((ms.filter fun m => m.start < owned).map fun m =>
        { offset := start + m.start, patternId := m.pattern }) := by
  refine Exec.mapM_eq_ok fun m hm => ?_
  have hm : m.start < owned := of_decide_eq_true (List.mem_filter.mp hm).2
  rw [hitAt, U64.add_eq (by omega), Exec.ok_bind]

theorem scanBlock_eq_region (s : Scanner patterns) (source : Source) (plan : Plan) (block : ℕ) :
    s.scanBlock source plan block = (do
      let r ← plan.region block
      let buf ← (source.readExactAt r.start r.len).mapErr .source
      let ownedLen ← U64.sub r.ownedEnd r.start
      let hits ← ((s.ac.findOverlapping buf).filter fun m => m.start < ownedLen).mapM (hitAt r.start)
      .ok (hits.insertionSort (· ≤ ·))) := by
  simp only [scanBlock, Plan.region, bind_assoc, Exec.ok_bind]

theorem scanBlock_eq (hc : source.Conforming content) (hs : plan.sourceSize = content.length)
    (hf : plan.blockCount * plan.blockSize < 2 ^ 64 ∧ content.length + plan.overlap < 2 ^ 64)
    (hb : b < plan.blockCount) :
    s.scanBlock source plan b = .ok (s.blockHits content plan.layout b) := by
  have ho : plan.sourceSize + plan.overlap < 2 ^ 64 := hs ▸ hf.2
  have hlt := Plan.start_lt hb
  have hle := Blocks.start_le_ownedEnd (plan.blockCount_eq_count ▸ hb)
  have hre := plan.layout.ownedEnd_le_readEnd (b := b)
  have hrs : plan.layout.readEnd b ≤ plan.sourceSize := plan.layout.readEnd_le
  have hread : source.readExactAt (plan.layout.start b) (plan.layout.readEnd b - plan.layout.start b) =
      .ok (subslice content (plan.layout.start b) (plan.layout.readEnd b - plan.layout.start b)) :=
    hc.readExactAt_ok (by omega)
  have howned : (U64.sub (plan.layout.ownedEnd b) (plan.layout.start b) : Exec ScanError ℕ) =
      .ok (plan.layout.ownedEnd b - plan.layout.start b) := U64.sub_eq hle
  rw [scanBlock_eq_region, Plan.region_eq hf.1 ho hb, Exec.ok_bind]
  simp only [Plan.regionAt, hread, howned, Exec.mapErr_ok, Exec.ok_bind]
  rw [mapM_hitAt (by omega), Exec.ok_bind]
  rfl

-- A scan reports what the owners see, in order, each once.
theorem scan_spec (hp : Plan.resolve s.config content.length = .ok plan)
    (hpool : ∀ threads, rt.buildPool threads = .ok ()) (hc : source.Conforming content)
    (hf : plan.blockCount * plan.blockSize < 2 ^ 64 ∧ content.length + plan.overlap < 2 ^ 64) :
    ∃ hits, s.scan rt source = .ok hits ∧ hits.Pairwise (· < ·) ∧
      ∀ h, h ∈ hits ↔ Sees patterns content plan.layout h := by
  have hs : plan.layout.size = content.length := Plan.sourceSize_of_resolve hp
  have hn := plan.blockCount_eq_count
  refine ⟨((List.range plan.blockCount).map (s.blockHits content plan.layout)).flatten, ?_, ?_, ?_⟩
  · have hb : ∀ b, b < plan.blockCount →
        s.scanBlock source plan b = .ok (s.blockHits content plan.layout b) :=
      fun _ hb => scanBlock_eq hc hs hf hb
    simp only [scan, hc.size_eq, hp, hpool, rt.collect_eq_ok hb, Exec.ok_bind, Exec.mapErr_ok]
    split
    case isTrue h₀ => simp [h₀]
    case isFalse   => rfl
  · refine List.pairwise_flatten.mpr ⟨?_, ?_⟩
    · intro _ hb
      have ⟨_, _, he⟩ := List.mem_map.mp hb
      exact he ▸ pairwise_blockHits
    · refine List.pairwise_map.mpr <| List.pairwise_lt_range.imp_of_mem ?_
      intro b₁ b₂ hb₁ hb₂ hlt h₁ hh₁ h₂ hh₂
      have ⟨_, hd₁⟩ := (mem_blockHits hs (hn ▸ List.mem_range.mp hb₁)).mp hh₁
      have ⟨_, hd₂⟩ := (mem_blockHits hs (hn ▸ List.mem_range.mp hb₂)).mp hh₂
      exact Hit.lt_of_div_lt (k := plan.layout.block) (by omega)
  · intro h
    simp only [List.mem_flatten, List.mem_map, List.mem_range]
    constructor
    case mp =>
      rintro ⟨_, ⟨b, hb, rfl⟩, hh⟩
      exact ((mem_blockHits hs (hn ▸ hb)).mp hh).1
    case mpr =>
      intro hh
      have hb := plan.layout.div_lt_count (hs ▸ hh.1)
      exact ⟨_, ⟨_, hn ▸ hb, rfl⟩, (mem_blockHits hs hb).mpr ⟨hh, rfl⟩⟩

theorem new_eq_ok (h : new rt patterns config = .ok s) :
    s.config = config ∧ ∃ plan, Plan.resolve config 0 = .ok plan := by
  simp only [new, Exec.bind_eq_ok] at h
  obtain ⟨_, _, plan, hp, ac, _, h⟩ := h
  cases h
  exact ⟨rfl, plan, hp⟩

-- The plan of a scanner that could be built exists for every source.
theorem resolve_of_new (h : new rt patterns config = .ok s) (size : ℕ) :
    ∃ plan, Plan.resolve s.config size = .ok plan ∧ Plan.resolve config size = .ok plan := by
  have ⟨he, _, hp⟩ := new_eq_ok h
  have ⟨plan, hp, _⟩ := Plan.resolve_size hp size
  exact ⟨plan, he ▸ hp, hp⟩

-- An overlap of at least the longest pattern minus one hides nothing from an owner.
theorem sees_iff_of_overlap (hp : Plan.resolve config content.length = .ok plan)
    (hoverlap : ∀ pat ∈ patterns, pat.length - 1 ≤ config.overlap.toNat) (h : Hit) :
    Sees patterns content plan.layout h ↔ h.offset < content.length ∧
      ∃ pat, patterns[h.patternId]? = some pat ∧ OccursAt content pat h.offset := by
  have ⟨_, ho⟩ := Plan.fitBudget_of_resolve hp
  have hcov : ∀ pat, patterns[h.patternId]? = some pat → plan.layout.Covers h.offset pat.length := by
    intro pat hpat
    have hle := hoverlap pat (List.mem_of_getElem? hpat)
    exact Blocks.covers_of_le (by change _ ≤ plan.overlap + 1; omega)
  constructor
  case mp  => exact fun ⟨hn, pat, hpat, hocc, _⟩ => ⟨hn, pat, hpat, hocc⟩
  case mpr => exact fun ⟨hn, pat, hpat, hocc⟩ => ⟨hn, pat, hpat, hocc, hcov pat hpat⟩

-- With such an overlap, a scan reports every occurrence of every pattern, once and in order.
theorem scan_exact (hnew : new rt patterns config = .ok s)
    (hpool : ∀ threads, rt.buildPool threads = .ok ()) (hc : source.Conforming content)
    (hf : config.Fits content.length)
    (hoverlap : ∀ pat ∈ patterns, pat.length - 1 ≤ config.overlap.toNat) :
    ∃ hits, s.scan rt source = .ok hits ∧ hits.Pairwise (· < ·) ∧ ∀ h, h ∈ hits ↔
      h.offset < content.length ∧ ∃ pat, patterns[h.patternId]? = some pat ∧
        OccursAt content pat h.offset := by
  have ⟨plan, hp, hp'⟩ := resolve_of_new hnew content.length
  have ⟨hits, hs, hlt, hm⟩ := scan_spec hp hpool hc (hf plan hp')
  exact ⟨hits, hs, hlt, fun h => (hm h).trans (sees_iff_of_overlap hp' hoverlap h)⟩

end
end Scanner

-- The runtime that searches naively and completes the blocks in order.
def naiveRuntime : Runtime where
  buildAutomaton patterns := .ok (.naive patterns)
  buildPool _             := .ok ()
  completion              := List.range
  completion_perm _       := .refl _

namespace Scanner

attribute [local instance] OverflowChecks.on

-- Two patterns of different lengths, one of which ends the other, in blocks of two bytes.
def overlappingPatterns : List Bytes :=
  [[65, 66], [66]]

theorem scan_exact_overlappingPatterns :
    ∃ s, new naiveRuntime overlappingPatterns ⟨2, 1, 1, 16⟩ = .ok s ∧
      ∃ hits, s.scan naiveRuntime (rawSource [65, 66, 66]) = .ok hits ∧ hits.Pairwise (· < ·) ∧
        ∀ h, h ∈ hits ↔ h.offset < 3 ∧ ∃ pat, overlappingPatterns[h.patternId]? = some pat ∧
          OccursAt [65, 66, 66] pat h.offset := by
  have hc : (rawSource [65, 66, 66]).Conforming [65, 66, 66] := rawSource_conforming (by decide)
  have hf : ScanConfig.Fits ⟨2, 1, 1, 16⟩ 3 := ScanConfig.fits_of_lt (by decide)
  exact ⟨_, rfl, scan_exact rfl (fun _ => rfl) hc hf (by decide)⟩

end Scanner
end Latent
