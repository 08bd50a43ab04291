import Latent.Rust.Int
import Latent.Search.Blocks
import Latent.Source.Basic

open Rust Search

namespace Latent

inductive ScanError
  | invalidConfig (detail : String)
  | noPatterns
  | source (e : SourceError)
  deriving DecidableEq, Repr

structure ScanConfig where
  blockSize    : UInt64
  overlap      : UInt64
  threads      : UInt64
  memoryBudget : UInt64
  deriving DecidableEq, Repr

-- The largest block of at most the requested size that fits the budget together with its overlap.
def ScanConfig.effectiveBlock (config : ScanConfig) : ℕ :=
  min config.blockSize.toNat (config.memoryBudget.toNat - config.overlap.toNat)

-- What `scan_block` computes before it reads.
structure Region where
  start    : ℕ
  ownedEnd : ℕ
  readEnd  : ℕ
  len      : ℕ
  deriving DecidableEq, Repr

structure Plan where
  blockSize     : ℕ
  overlap       : ℕ
  workerThreads : ℕ
  blockCount    : ℕ
  sourceSize    : ℕ
  blockSize_pos : 0 < blockSize
  blockCount_eq : blockCount = (sourceSize + blockSize - 1) / blockSize

namespace Plan

def MIN_BLOCK_SIZE : ℕ :=
  4 * 1024

def layout (plan : Plan) : Blocks where
  size      := plan.sourceSize
  block     := plan.blockSize
  overlap   := plan.overlap
  block_pos := plan.blockSize_pos

theorem blockCount_eq_count (plan : Plan) : plan.blockCount = plan.layout.count :=
  plan.blockCount_eq

theorem blockCount_mul_lt (plan : Plan) :
    plan.blockCount * plan.blockSize < plan.sourceSize + plan.blockSize :=
  plan.blockCount_eq ▸ plan.layout.count_mul_lt

theorem blockCount_le_one {plan : Plan} (h : plan.sourceSize ≤ plan.blockSize) : plan.blockCount ≤ 1 :=
  plan.blockCount_eq ▸ plan.layout.count_le_one h

section

variable [OverflowChecks]

-- The requested block size, or what the memory budget leaves of it.
def fitBudget (config : ScanConfig) : Exec ScanError ℕ := do
  let overlap := config.overlap.toNat
  let memoryBudget := config.memoryBudget.toNat
  if memoryBudget < (← U64.add config.blockSize.toNat overlap) then
    let smallestBuffer ← U64.add MIN_BLOCK_SIZE overlap
    Exec.errIf (memoryBudget < smallestBuffer) <| .invalidConfig
      s!"memory budget {memoryBudget} is below the {smallestBuffer} bytes needed for one minimal block plus overlap"
    U64.sub memoryBudget overlap
  else
    .ok config.blockSize.toNat

def resolve (config : ScanConfig) (sourceSize : ℕ) : Exec ScanError Plan := do
  Exec.errIf (config.overlap = 0) <| .invalidConfig "overlap must be non-zero"
  Exec.errIf (config.blockSize = 0) <| .invalidConfig "block size must be non-zero"
  Exec.errIf (config.threads = 0) <| .invalidConfig "thread count must be non-zero"
  let overlap := config.overlap.toNat
  let blockSize ← fitBudget config
  let buffer ← U64.add blockSize overlap
  let byBudget := max (← U64.div config.memoryBudget.toNat buffer) 1
  let workerThreads := max (min config.threads.toNat byBudget) 1
  if h : 0 < blockSize then
    .ok {
      blockSize, overlap, workerThreads, sourceSize
      blockCount    := (sourceSize + blockSize - 1) / blockSize
      blockSize_pos := h
      blockCount_eq := rfl
    }
  else
    -- `div_ceil` divides by zero.
    .panic

variable {config : ScanConfig} {size : ℕ} {plan : Plan}

-- The size of the source has no part in whether a plan exists, nor in anything but the block count.
theorem resolve_size (h : resolve config size = .ok plan) (size' : ℕ) :
    ∃ plan', resolve config size' = .ok plan' ∧ plan'.sourceSize = size' ∧
      plan'.blockSize = plan.blockSize ∧ plan'.overlap = plan.overlap ∧
      plan'.workerThreads = plan.workerThreads := by
  simp only [resolve, Exec.bind_eq_ok] at h ⊢
  obtain ⟨_, h₁, _, h₂, _, h₃, blockSize, hb, buffer, hu, byBudget, hd, h⟩ := h
  split at h
  case isFalse => cases h
  case isTrue hp =>
    cases h
    refine ⟨_, ⟨_, h₁, _, h₂, _, h₃, _, hb, _, hu, _, hd, dif_pos hp⟩, rfl, rfl, rfl, rfl⟩

theorem sourceSize_of_resolve (h : resolve config size = .ok plan) : plan.sourceSize = size := by
  have ⟨plan', h', hs, _⟩ := resolve_size h size
  cases h.symm.trans h'
  exact hs

theorem fitBudget_of_resolve (h : resolve config size = .ok plan) :
    fitBudget config = .ok plan.blockSize ∧ plan.overlap = config.overlap.toNat := by
  simp only [resolve, Exec.bind_eq_ok] at h
  obtain ⟨_, _, _, _, _, _, blockSize, hb, _, _, _, _, h⟩ := h
  split at h
  case isFalse => cases h
  case isTrue hp =>
    cases h
    exact ⟨hb, rfl⟩

theorem resolve_pos (h : resolve config size = .ok plan) : 0 < config.blockSize.toNat := by
  simp only [resolve, Exec.bind_eq_ok, Exec.errIf_eq_ok] at h
  obtain ⟨_, _, _, hb, _⟩ := h
  exact Nat.pos_of_ne_zero fun h₀ => hb (UInt64.toNat_inj.mp h₀)

-- The budget is met exactly, unless the overlap is so large that a sum or a difference wraps around.
-- In that case a small source has only one block.
theorem blockSize_of_fitBudget {blockSize : ℕ} (h : fitBudget config = .ok blockSize)
    (hp : 0 < config.blockSize.toNat)
    (hf : size + config.blockSize.toNat + config.overlap.toNat < 2 ^ 64) :
    blockSize = config.effectiveBlock ∨ config.effectiveBlock = 0 ∧ size < blockSize ∧
      blockSize < 2 ^ 64 ∧ size ≤ config.overlap.toNat := by
  have hm := config.memoryBudget.toNat_lt
  simp only [fitBudget, U64.add_eq (show config.blockSize.toNat + config.overlap.toNat < 2 ^ 64 by omega),
    Exec.ok_bind] at h
  simp only [ScanConfig.effectiveBlock]
  split at h
  case isTrue =>
    simp only [Exec.bind_eq_ok, Exec.errIf_eq_ok] at h
    obtain ⟨smallestBuffer, hb, _, hle, hs⟩ := h
    have hb := U64.eq_mod_of_add hb
    have hs := U64.eq_mod_of_sub hm hs
    simp only [MIN_BLOCK_SIZE] at hb
    omega
  case isFalse =>
    cases h
    omega

def region (plan : Plan) (block : ℕ) : Exec ScanError Region := do
  let start ← U64.mul block plan.blockSize
  let ownedEnd := min (← U64.add start plan.blockSize) plan.sourceSize
  let readEnd := min (← U64.add ownedEnd plan.overlap) plan.sourceSize
  let len ← U64.sub readEnd start
  .ok { start, ownedEnd, readEnd, len }

end

def regionAt (plan : Plan) (block : ℕ) : Region where
  start    := plan.layout.start block
  ownedEnd := plan.layout.ownedEnd block
  readEnd  := plan.layout.readEnd block
  len      := plan.layout.readEnd block - plan.layout.start block

variable {plan : Plan} {block : ℕ}

theorem end_le (h : block < plan.blockCount) :
    plan.layout.start block + plan.blockSize ≤ plan.blockCount * plan.blockSize := by
  have hm : (block + 1) * plan.blockSize ≤ plan.blockCount * plan.blockSize := Nat.mul_le_mul_right _ h
  rwa [Nat.succ_mul] at hm

theorem start_lt (h : block < plan.blockCount) : plan.layout.start block < plan.sourceSize :=
  Blocks.lt_count_iff.mp (plan.blockCount_eq_count ▸ h)

-- Where the last block and its overlap end at `u64` values, the region is that of the layout.
theorem region_eq [OverflowChecks] (hm : plan.blockCount * plan.blockSize < 2 ^ 64)
    (ho : plan.sourceSize + plan.overlap < 2 ^ 64) (h : block < plan.blockCount) :
    plan.region block = .ok (plan.regionAt block) := by
  have hs := start_lt h
  have he := end_le h
  have hr := plan.layout.ownedEnd_le_readEnd (b := block)
  have hle := Blocks.start_le_ownedEnd (plan.blockCount_eq_count ▸ h)
  have hn : plan.layout.ownedEnd block ≤ plan.sourceSize := Nat.min_le_right ..
  have h₁ : (U64.mul block plan.blockSize : Exec ScanError ℕ) = .ok (plan.layout.start block) :=
    U64.mul_eq (show plan.layout.start block < _ by omega)
  have h₂ : (U64.add (plan.layout.start block) plan.blockSize : Exec ScanError ℕ) = _ :=
    U64.add_eq (by omega)
  have h₃ : (U64.add (plan.layout.ownedEnd block) plan.overlap : Exec ScanError ℕ) = _ :=
    U64.add_eq (by omega)
  have h₄ : (U64.sub (plan.layout.readEnd block) (plan.layout.start block) : Exec ScanError ℕ) = _ :=
    U64.sub_eq (by omega)
  have hd : min (plan.layout.start block + plan.blockSize) plan.sourceSize = plan.layout.ownedEnd block := rfl
  have ht : min (plan.layout.ownedEnd block + plan.overlap) plan.sourceSize = plan.layout.readEnd block := rfl
  simp only [region, h₁, h₂, hd, h₃, ht, h₄, Exec.ok_bind, regionAt]

end Plan

-- The end of the last block and the end of its overlap are `u64` values.
def ScanConfig.Fits [OverflowChecks] (config : ScanConfig) (size : ℕ) : Prop :=
  ∀ plan, Plan.resolve config size = .ok plan →
    plan.blockCount * plan.blockSize < 2 ^ 64 ∧ size + plan.overlap < 2 ^ 64

namespace ScanConfig

variable [OverflowChecks] {config : ScanConfig} {size : ℕ}

-- It is enough for the sum of all three sizes to fit, be it with the block size as it is requested
-- or as the budget leaves it.
theorem fits_of_lt (hf : size + config.blockSize.toNat + config.overlap.toNat < 2 ^ 64) :
    config.Fits size := by
  intro plan h
  have hs := Plan.sourceSize_of_resolve h
  have ⟨hb, ho⟩ := Plan.fitBudget_of_resolve h
  have hc := plan.blockCount_mul_lt
  refine ⟨?_, by omega⟩
  rcases Plan.blockSize_of_fitBudget hb (Plan.resolve_pos h) hf with he | ⟨_, hlt, hb, _⟩
  · simp only [ScanConfig.effectiveBlock] at he
    omega
  · have hm := Nat.mul_le_mul_right plan.blockSize (plan.blockCount_le_one (by omega))
    omega

-- A source that is not longer has no more blocks.
theorem Fits.mono {size' : ℕ} (h : config.Fits size) (hle : size' ≤ size) : config.Fits size' := by
  intro plan' hp'
  have ⟨plan, hp, hs, hb, ho, _⟩ := Plan.resolve_size hp' size
  have hs' := Plan.sourceSize_of_resolve hp'
  have ⟨hlt, hsum⟩ := h plan hp
  have hcount : plan'.blockCount ≤ plan.blockCount := by
    rw [plan'.blockCount_eq, plan.blockCount_eq, hs, hs', hb]
    exact Nat.div_le_div_right (by omega)
  have hm := Nat.mul_le_mul_right plan.blockSize hcount
  rw [← hb, ← ho]
  omega

theorem fits_of_effective (hf : ∀ plan, Plan.resolve config size = .ok plan →
    size + plan.blockSize + plan.overlap < 2 ^ 64) : config.Fits size := by
  intro plan h
  have hs := Plan.sourceSize_of_resolve h
  have hlt := hf plan h
  have hc := plan.blockCount_mul_lt
  omega

end ScanConfig
end Latent
