import Latent.Scan.Engine

open Rust Search

namespace Latent

namespace Plan

variable {plan : Plan} {config : ScanConfig} {size block : ℕ} {r : Region}

-- The arithmetic that is left for a region does not wrap either, and its read stays in the source.
structure Regular (plan : Plan) (r : Region) : Prop where
  len_eq   : r.len = r.readEnd - r.start
  len_le   : r.len ≤ plan.blockSize + plan.overlap
  inside   : r.start ≤ r.readEnd ∧ r.readEnd ≤ plan.sourceSize
  ownedLen : ∀ [OverflowChecks], (U64.sub r.ownedEnd r.start : Exec ScanError ℕ) = .ok (r.ownedEnd - r.start)
  hitAt    : ∀ [OverflowChecks] (m : Match), m.start < r.ownedEnd - r.start →
    Scanner.hitAt r.start m = .ok { offset := r.start + m.start, patternId := m.pattern }

-- No operation wraps, so the profile makes no difference, and the owned parts tile the source.
def LayoutSafe (plan : Plan) : Prop :=
  ∃ regions : List Region,
    (∀ [OverflowChecks], (List.range plan.blockCount).mapM plan.region = .ok regions) ∧
    Tiles 0 (regions.map fun r => (r.start, r.ownedEnd)) plan.sourceSize ∧ ∀ r ∈ regions, plan.Regular r

theorem regular_regionAt (ho : plan.sourceSize + plan.overlap < 2 ^ 64) (h : block < plan.blockCount) :
    plan.Regular (plan.regionAt block) := by
  have hr := plan.layout.ownedEnd_le_readEnd (b := block)
  have hle := Blocks.start_le_ownedEnd (plan.blockCount_eq_count ▸ h)
  have hn : plan.layout.ownedEnd block ≤ plan.sourceSize := Nat.min_le_right ..
  constructor
  case len_eq => rfl
  case len_le =>
    have hle : plan.layout.readEnd block ≤ plan.layout.start block + plan.blockSize + plan.overlap := by
      have h₁ : plan.layout.readEnd block ≤ plan.layout.ownedEnd block + plan.overlap := Nat.min_le_left ..
      have h₂ : plan.layout.ownedEnd block ≤ plan.layout.start block + plan.blockSize := Nat.min_le_left ..
      omega
    simp only [regionAt]
    omega
  case inside => exact ⟨Nat.le_trans hle hr, plan.layout.readEnd_le⟩
  case ownedLen => exact U64.sub_eq hle
  case hitAt =>
    intro _ m hm
    simp only [regionAt] at hm
    have hlt : plan.layout.start block + m.start < 2 ^ 64 := by omega
    rw [regionAt, Scanner.hitAt, U64.add_eq hlt, Exec.ok_bind]

theorem layoutSafe_of (hm : plan.blockCount * plan.blockSize < 2 ^ 64)
    (ho : plan.sourceSize + plan.overlap < 2 ^ 64) : plan.LayoutSafe := by
  refine ⟨(List.range plan.blockCount).map plan.regionAt, ?_, ?_, ?_⟩
  · exact Exec.mapM_eq_ok fun block hb => region_eq hm ho (List.mem_range.mp hb)
  · have ht := plan.layout.tiles
    rw [← plan.blockCount_eq_count] at ht
    rw [List.map_map]
    exact ht
  · intro r hr
    have ⟨block, hb, he⟩ := List.mem_map.mp hr
    exact he ▸ regular_regionAt ho (List.mem_range.mp hb)

theorem layoutSafe_of_empty (h : plan.sourceSize = 0) : plan.LayoutSafe := by
  have hn : plan.blockCount = 0 := by
    rw [plan.blockCount_eq, h]
    exact Nat.div_eq_of_lt (by have := plan.blockSize_pos; omega)
  refine ⟨[], ?_, h.symm, by simp⟩
  intro _
  rw [hn]
  rfl

section

attribute [local instance] OverflowChecks.on

-- With the checks, the arithmetic of the last block does not panic only if its ends are `u64` values.
theorem bounds_of_regions {regions : List Region} (h₀ : 0 < plan.sourceSize)
    (h : (List.range plan.blockCount).mapM plan.region = .ok regions) :
    plan.blockCount * plan.blockSize < 2 ^ 64 ∧ plan.sourceSize + plan.overlap < 2 ^ 64 := by
  have hc : plan.sourceSize ≤ plan.blockCount * plan.blockSize :=
    plan.blockCount_eq_count ▸ plan.layout.le_count_mul
  have hp : 0 < plan.blockCount := by
    refine Nat.pos_of_ne_zero fun hz => ?_
    rw [hz, Nat.zero_mul] at hc
    omega
  have ⟨last, hl⟩ := Nat.exists_eq_add_one.mpr hp
  have ⟨r, hr⟩ := Exec.exists_of_mapM_eq_ok h (List.mem_range.mpr (show last < plan.blockCount by omega))
  simp only [region, Exec.bind_eq_ok, U64.mul_eq_ok_iff, U64.add_eq_ok_iff] at hr
  obtain ⟨_, ⟨_, rfl⟩, _, ⟨hm, rfl⟩, _, ⟨ho, _⟩, _⟩ := hr
  rw [← Nat.succ_mul, Nat.succ_eq_add_one, ← hl] at hm ho
  rw [Nat.min_eq_right hc] at ho
  exact ⟨hm, ho⟩

end

-- The layout is safe for a source whose size, rounded up to whole blocks, is a `u64` value, and so is
-- its size together with the overlap.
theorem layoutSafe_iff [OverflowChecks] (h : resolve config size = .ok plan) : plan.LayoutSafe ↔ size = 0 ∨
    (size + plan.blockSize - 1) / plan.blockSize * plan.blockSize < 2 ^ 64 ∧ size + plan.overlap < 2 ^ 64 := by
  have hs := sourceSize_of_resolve h
  rw [← hs, ← plan.blockCount_eq]
  constructor
  case mp =>
    intro ⟨regions, hr, _⟩
    refine or_iff_not_imp_left.mpr fun hn => ?_
    exact bounds_of_regions (Nat.pos_of_ne_zero hn) (@hr OverflowChecks.on)
  case mpr =>
    rintro (h₀ | ⟨hm, ho⟩)
    · exact layoutSafe_of_empty h₀
    · exact layoutSafe_of hm ho

attribute [local instance] OverflowChecks.on

-- A source of the largest size there is, in blocks of 16 MiB.
def largestPlan : Plan where
  blockSize     := 2 ^ 24
  overlap       := 4096
  workerThreads := 1
  blockCount    := 2 ^ 40
  sourceSize    := 2 ^ 64 - 1
  blockSize_pos := by decide
  blockCount_eq := by decide

-- The end of its last block is no `u64` value.
theorem not_layoutSafe_largest : resolve ⟨0x1000000, 4096, 1, 0x40000000⟩ (2 ^ 64 - 1) = .ok largestPlan ∧
    largestPlan.region (2 ^ 40 - 1) = .panic ∧ ¬largestPlan.LayoutSafe := by
  have hr : largestPlan.region (2 ^ 40 - 1) = .panic := by decide
  refine ⟨by rfl, hr, fun ⟨_, hs, _⟩ => ?_⟩
  have ⟨r, he⟩ := Exec.exists_of_mapM_eq_ok hs
    (List.mem_range.mpr (show 2 ^ 40 - 1 < largestPlan.blockCount by decide))
  cases hr.symm.trans he

theorem layoutSafe_iff_half : ∃ plan : Plan, plan.sourceSize = 2 ^ 63 ∧ plan.LayoutSafe := by
  have hr : resolve ⟨0x1000000, 4096, 1, 0x40000000⟩ (2 ^ 63) =
      .ok ⟨2 ^ 24, 4096, 1, 2 ^ 39, 2 ^ 63, by decide, by decide⟩ := by
    rfl
  exact ⟨_, rfl, (layoutSafe_iff hr).mpr (.inr (by decide))⟩

end Plan
end Latent
