import Latent.Scan.Engine

open Rust Search

namespace Latent

-- All of an occurrence lies in what the block that owns its offset reads.
def ScanConfig.Covers (config : ScanConfig) (offset len : ℕ) : Prop :=
  offset % config.effectiveBlock + len ≤ config.effectiveBlock + config.overlap.toNat

namespace Plan

variable [OverflowChecks] {config : ScanConfig} {plan : Plan} {size offset len : ℕ}

theorem covers_iff (h : resolve config size = .ok plan)
    (hf : size + config.blockSize.toNat + config.overlap.toNat < 2 ^ 64) (hl : offset + len ≤ size) :
    plan.layout.Covers offset len ↔ config.Covers offset len := by
  have ⟨hb, ho⟩ := fitBudget_of_resolve h
  simp only [Blocks.Covers, layout, ScanConfig.Covers, ho]
  rcases blockSize_of_fitBudget hb (resolve_pos h) hf with he | ⟨h₀, hlt, _, hle⟩
  · rw [he]
  · rw [h₀, Nat.mod_zero, Nat.mod_eq_of_lt (by omega)]
    omega

-- The documented bound on the overlap is enough.
theorem covers_of_overlap (h : resolve config size = .ok plan)
    (hf : size + config.blockSize.toNat + config.overlap.toNat < 2 ^ 64) (hl : offset + len ≤ size)
    (hle : len - 1 ≤ config.overlap.toNat) : config.Covers offset len := by
  have ⟨_, ho⟩ := fitBudget_of_resolve h
  refine (covers_iff h hf hl).mp <| Blocks.covers_of_le ?_
  change len ≤ plan.overlap + 1
  omega

end Plan

namespace Scanner

section

variable [OverflowChecks] {rt rt₁ rt₂ : Runtime} {patterns : List Bytes} {s s₁ s₂ : Scanner patterns}
variable {config c₁ c₂ : ScanConfig} {source : Source} {content : Bytes}

-- An occurrence is reported if and only if the configuration covers it.
theorem scan_covers (hnew : new rt patterns config = .ok s)
    (hpool : ∀ threads, rt.buildPool threads = .ok ()) (hc : source.Conforming content)
    (hf : content.length + config.blockSize.toNat + config.overlap.toNat < 2 ^ 64) :
    ∃ hits, s.scan rt source = .ok hits ∧ hits.Pairwise (· < ·) ∧ ∀ h, h ∈ hits ↔
      h.offset < content.length ∧ ∃ pat, patterns[h.patternId]? = some pat ∧
        OccursAt content pat h.offset ∧ config.Covers h.offset pat.length := by
  have ⟨plan, hp, hp'⟩ := resolve_of_new hnew content.length
  have ⟨hits, hs, hlt, hm⟩ := scan_spec hp hpool hc (ScanConfig.fits_of_lt hf plan hp')
  refine ⟨hits, hs, hlt, fun h => (hm h).trans ?_⟩
  refine and_congr_right fun _ => exists_congr fun pat => and_congr_right fun _ => ?_
  exact and_congr_right fun ho => Plan.covers_iff hp' hf ho.1

variable (h₁ : new rt₁ patterns c₁ = .ok s₁) (h₂ : new rt₂ patterns c₂ = .ok s₂)
variable (hp₁ : ∀ threads, rt₁.buildPool threads = .ok ()) (hp₂ : ∀ threads, rt₂.buildPool threads = .ok ())
variable (hc : source.Conforming content)
variable (hf₁ : content.length + c₁.blockSize.toNat + c₁.overlap.toNat < 2 ^ 64)
variable (hf₂ : content.length + c₂.blockSize.toNat + c₂.overlap.toNat < 2 ^ 64)

include h₁ h₂ hp₁ hp₂ hc hf₁ hf₂

theorem scan_eq_scan_of_covers (h : ∀ pat ∈ patterns, ∀ offset, offset < content.length →
    OccursAt content pat offset → (c₁.Covers offset pat.length ↔ c₂.Covers offset pat.length)) :
    s₁.scan rt₁ source = s₂.scan rt₂ source := by
  have ⟨hits₁, hs₁, hlt₁, hm₁⟩ := scan_covers h₁ hp₁ hc hf₁
  have ⟨hits₂, hs₂, hlt₂, hm₂⟩ := scan_covers h₂ hp₂ hc hf₂
  rw [hs₁, hs₂, Exec.ok.injEq]
  refine hlt₁.eq_of_mem_iff hlt₂ fun {hit} => ?_
  rw [hm₁, hm₂]
  refine and_congr_right fun hn => exists_congr fun pat => and_congr_right fun hid => ?_
  exact and_congr_right fun hocc => h pat (List.mem_of_getElem? hid) _ hn hocc

-- Block size, threads and budget make no difference where both overlaps respect the documented bound.
theorem scan_eq_scan_of_overlap (ho₁ : ∀ pat ∈ patterns, pat.length - 1 ≤ c₁.overlap.toNat)
    (ho₂ : ∀ pat ∈ patterns, pat.length - 1 ≤ c₂.overlap.toNat) :
    s₁.scan rt₁ source = s₂.scan rt₂ source := by
  have ⟨plan₁, _, hr₁⟩ := resolve_of_new h₁ content.length
  have ⟨plan₂, _, hr₂⟩ := resolve_of_new h₂ content.length
  refine scan_eq_scan_of_covers h₁ h₂ hp₁ hp₂ hc hf₁ hf₂ fun pat hpat offset _ hocc => iff_of_true ?_ ?_
  · exact Plan.covers_of_overlap hr₁ hf₁ hocc.1 (ho₁ pat hpat)
  · exact Plan.covers_of_overlap hr₂ hf₂ hocc.1 (ho₂ pat hpat)

-- Two accepted configurations give the same answer exactly if they cover the same occurrences.
theorem scan_eq_scan_iff :
    s₁.scan rt₁ source = s₂.scan rt₂ source ↔ ∀ pat ∈ patterns, ∀ offset, offset < content.length →
      OccursAt content pat offset → (c₁.Covers offset pat.length ↔ c₂.Covers offset pat.length) := by
  constructor
  case mp =>
    intro h pat hpat offset ho hocc
    have ⟨hits₁, hs₁, _, hm₁⟩ := scan_covers h₁ hp₁ hc hf₁
    have ⟨hits₂, hs₂, _, hm₂⟩ := scan_covers h₂ hp₂ hc hf₂
    rw [hs₁, hs₂, Exec.ok.injEq] at h
    have ⟨patternId, hid⟩ := List.getElem?_of_mem hpat
    have hm := (hm₁ { offset, patternId }).symm.trans (h ▸ hm₂ { offset, patternId })
    simpa [ho, hid, hocc] using hm
  case mpr => exact scan_eq_scan_of_covers h₁ h₂ hp₁ hp₂ hc hf₁ hf₂

end

attribute [local instance] OverflowChecks.off

-- A pattern of three bytes with an overlap of one: the block of two that owns offset 1 reads up to
-- offset 3, where the pattern still has a byte to go.
def splitPattern : List Bytes :=
  [[65, 66, 67]]

def splitConfig : ScanConfig :=
  { blockSize := 2, overlap := 1, threads := 1, memoryBudget := 64 }

def wideConfig : ScanConfig :=
  { blockSize := 16, overlap := 16, threads := 1, memoryBudget := 64 }

theorem scan_eq_scan_iff_splitPattern :
    ∃ s₁ s₂, new naiveRuntime splitPattern splitConfig = .ok s₁ ∧
      new naiveRuntime splitPattern wideConfig = .ok s₂ ∧
      (s₁.scan naiveRuntime (rawSource [0, 65, 66, 67]) = s₂.scan naiveRuntime (rawSource [0, 65, 66, 67]) ↔
        ∀ pat ∈ splitPattern, ∀ offset, offset < 4 → OccursAt [0, 65, 66, 67] pat offset →
          (splitConfig.Covers offset pat.length ↔ wideConfig.Covers offset pat.length)) := by
  have hc : (rawSource [0, 65, 66, 67]).Conforming [0, 65, 66, 67] := rawSource_conforming (by decide)
  exact ⟨_, _, rfl, rfl,
    scan_eq_scan_iff rfl rfl (fun _ => rfl) (fun _ => rfl) hc (by decide) (by decide)⟩

theorem not_scan_eq_scan :
    ∃ s₁ s₂, new naiveRuntime splitPattern splitConfig = .ok s₁ ∧
      new naiveRuntime splitPattern wideConfig = .ok s₂ ∧
      s₁.scan naiveRuntime (rawSource [0, 65, 66, 67]) = .ok [] ∧
      s₂.scan naiveRuntime (rawSource [0, 65, 66, 67]) = .ok [{ offset := 1, patternId := 0 }] ∧
      s₁.scan naiveRuntime (rawSource [0, 65, 66, 67]) ≠ s₂.scan naiveRuntime (rawSource [0, 65, 66, 67]) := by
  refine ⟨_, _, rfl, rfl, ?_, ?_, ?_⟩ <;> decide +kernel

end Scanner
end Latent
