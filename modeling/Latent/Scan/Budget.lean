import Latent.Scan.Engine

open Rust

namespace Latent

-- A plan as the configuration asks for it: as large as the budget allows, but no larger.
structure Plan.Honours (plan : Plan) (config : ScanConfig) : Prop where
  overlap       : plan.overlap = config.overlap.toNat
  block_pos     : 1 ≤ plan.blockSize
  block_le      : plan.blockSize ≤ config.blockSize.toNat
  workers_pos   : 1 ≤ plan.workerThreads
  workers_le    : plan.workerThreads ≤ config.threads.toNat
  budget        : plan.workerThreads * (plan.blockSize + plan.overlap) ≤ config.memoryBudget.toNat
  shrunk        : plan.blockSize ≠ config.blockSize.toNat →
    config.memoryBudget.toNat < config.blockSize.toNat + config.overlap.toNat ∧ 4096 ≤ plan.blockSize

namespace ScanConfig

variable {config : ScanConfig}

structure HonoursBudget [OverflowChecks] (config : ScanConfig) : Prop where
  noPanic   : ∀ size, Plan.resolve config size ≠ .panic
  honours   : ∀ size plan, Plan.resolve config size = .ok plan → plan.Honours config
  everySize : ∀ size size' plan, Plan.resolve config size = .ok plan →
    ∃ plan', Plan.resolve config size' = .ok plan' ∧ plan'.blockSize = plan.blockSize ∧
      plan'.overlap = plan.overlap ∧ plan'.workerThreads = plan.workerThreads
  accepted  : ∀ rt patterns (s : Scanner patterns), Scanner.new rt patterns config = .ok s →
    ∀ size, ∃ plan, Plan.resolve s.config size = .ok plan

-- One of the fields is refused right away.
def Refused (config : ScanConfig) : Prop :=
  config.overlap = 0 ∨ config.blockSize = 0 ∨ config.threads = 0

-- The sums that are taken of these fields are `u64` values.
def SumsFit (config : ScanConfig) : Prop :=
  config.blockSize.toNat + config.overlap.toNat < 2 ^ 64 ∧
    (config.blockSize.toNat + config.overlap.toNat ≤ config.memoryBudget.toNat ∨
      Plan.MIN_BLOCK_SIZE + config.overlap.toNat < 2 ^ 64)

section

variable [OverflowChecks]

theorem resolve_of_refused (h : config.Refused) (size : ℕ) : ∃ e, Plan.resolve config size = .err e := by
  rw [Plan.resolve]
  by_cases ho : config.overlap = 0
  case pos => exact ⟨_, by rw [Exec.errIf_pos ho, Exec.err_bind]⟩
  case neg =>
    rw [Exec.errIf_neg ho, Exec.ok_bind]
    by_cases hb : config.blockSize = 0
    case pos => exact ⟨_, by rw [Exec.errIf_pos hb, Exec.err_bind]⟩
    case neg =>
      rw [Exec.errIf_neg hb, Exec.ok_bind, Exec.errIf_pos ((h.resolve_left ho).resolve_left hb)]
      exact ⟨_, rfl⟩

theorem fitBudget_cases (h : config.SumsFit) : (∃ e, Plan.fitBudget config = .err e) ∨
    (Plan.fitBudget config = .ok config.blockSize.toNat ∧
      config.blockSize.toNat + config.overlap.toNat ≤ config.memoryBudget.toNat) ∨
    (Plan.fitBudget config = .ok (config.memoryBudget.toNat - config.overlap.toNat) ∧
      config.memoryBudget.toNat < config.blockSize.toNat + config.overlap.toNat ∧
        4096 + config.overlap.toNat ≤ config.memoryBudget.toNat) := by
  have ⟨hs, hm⟩ := h
  simp only [Plan.fitBudget, U64.add_eq hs, Exec.ok_bind]
  split
  case isFalse hb => exact .inr (.inl ⟨rfl, Nat.not_lt.mp hb⟩)
  case isTrue hb =>
    have hm := hm.resolve_left (Nat.not_le.mpr hb)
    rw [U64.add_eq hm, Exec.ok_bind]
    by_cases hl : config.memoryBudget.toNat < Plan.MIN_BLOCK_SIZE + config.overlap.toNat
    case pos => exact .inl ⟨_, by rw [Exec.errIf_pos hl, Exec.err_bind]⟩
    case neg =>
      have hl : 4096 + config.overlap.toNat ≤ config.memoryBudget.toNat := Nat.not_lt.mp hl
      have he : ¬config.memoryBudget.toNat < Plan.MIN_BLOCK_SIZE + config.overlap.toNat := Nat.not_lt.mpr hl
      refine .inr (.inr ⟨?_, hb, hl⟩)
      rw [Exec.errIf_neg he, Exec.ok_bind, U64.sub_eq (by omega)]

theorem resolve_of_fitBudget {blockSize : ℕ} (hr : ¬config.Refused)
    (hf : Plan.fitBudget config = .ok blockSize) (hp : 0 < blockSize)
    (hle : blockSize + config.overlap.toNat ≤ config.memoryBudget.toNat) (size : ℕ) :
    ∃ plan, Plan.resolve config size = .ok plan ∧ plan.blockSize = blockSize ∧
      plan.overlap = config.overlap.toNat ∧ plan.workerThreads = max (min config.threads.toNat
        (max (config.memoryBudget.toNat / (blockSize + config.overlap.toNat)) 1)) 1 := by
  simp only [Refused, not_or] at hr
  have hm := config.memoryBudget.toNat_lt
  have hu : (U64.add blockSize config.overlap.toNat : Exec ScanError ℕ) = _ := U64.add_eq (by omega)
  have hd : (U64.div config.memoryBudget.toNat (blockSize + config.overlap.toNat) : Exec ScanError ℕ) = _ :=
    U64.div_eq (by omega)
  simp only [Plan.resolve, Exec.errIf_neg hr.1, Exec.errIf_neg hr.2.1, Exec.errIf_neg hr.2.2, hf, hu, hd,
    Exec.ok_bind, dif_pos hp]
  exact ⟨_, rfl, rfl, rfl, rfl⟩

-- No more workers than there is memory for.
theorem honours_of_fitBudget {blockSize size : ℕ} {plan : Plan} (hr : ¬config.Refused)
    (hf : Plan.fitBudget config = .ok blockSize) (hp : 0 < blockSize)
    (hle : blockSize + config.overlap.toNat ≤ config.memoryBudget.toNat)
    (hb : blockSize = config.blockSize.toNat ∨ blockSize < config.blockSize.toNat ∧
      config.memoryBudget.toNat < config.blockSize.toNat + config.overlap.toNat ∧ 4096 ≤ blockSize)
    (h : Plan.resolve config size = .ok plan) : plan.Honours config := by
  have ⟨plan', h', hbs, hov, hw⟩ := resolve_of_fitBudget hr hf hp hle size
  cases h.symm.trans h'
  have hq : 1 ≤ config.memoryBudget.toNat / (blockSize + config.overlap.toNat) :=
    (Nat.le_div_iff_mul_le (by omega)).mpr (by omega)
  have ht : 0 < config.threads.toNat := Nat.pos_of_ne_zero fun h₀ =>
    hr (.inr (.inr (UInt64.toNat_inj.mp h₀)))
  have hwq : plan.workerThreads ≤ config.memoryBudget.toNat / (blockSize + config.overlap.toNat) := by omega
  constructor
  case overlap     => exact hov
  case block_pos   => omega
  case block_le    => omega
  case workers_pos => omega
  case workers_le  => omega
  case budget =>
    rw [hbs, hov]
    exact Nat.le_trans (Nat.mul_le_mul_right _ hwq) (Nat.div_mul_le_self ..)
  case shrunk => omega

theorem honoursBudget_of (hp : ∀ size, Plan.resolve config size ≠ .panic)
    (hh : ∀ size plan, Plan.resolve config size = .ok plan → plan.Honours config) : config.HonoursBudget where
  noPanic   := hp
  honours   := hh
  everySize := by
    intro size size' plan h
    have ⟨plan', h', _, he⟩ := Plan.resolve_size h size'
    exact ⟨plan', h', he⟩
  accepted := by
    intro rt patterns s h size
    have ⟨plan, hs, _⟩ := Scanner.resolve_of_new h size
    exact ⟨plan, hs⟩

theorem honoursBudget_of_refused (h : config.Refused) : config.HonoursBudget := by
  refine honoursBudget_of (fun size => ?_) fun size plan hp => ?_
  · have ⟨e, he⟩ := resolve_of_refused h size
    simp [he]
  · have ⟨e, he⟩ := resolve_of_refused h size
    cases he.symm.trans hp

theorem resolve_of_fitBudget_err {e : ScanError} (hr : ¬config.Refused) (hf : Plan.fitBudget config = .err e)
    (size : ℕ) : Plan.resolve config size = .err e := by
  simp only [Refused, not_or] at hr
  simp only [Plan.resolve, Exec.errIf_neg hr.1, Exec.errIf_neg hr.2.1, Exec.errIf_neg hr.2.2, hf,
    Exec.ok_bind, Exec.err_bind]

theorem honoursBudget_of_sumsFit (hr : ¬config.Refused) (h : config.SumsFit) : config.HonoursBudget := by
  have hb : 0 < config.blockSize.toNat := Nat.pos_of_ne_zero fun h₀ => hr (.inr (.inl (UInt64.toNat_inj.mp h₀)))
  rcases fitBudget_cases h with ⟨e, hf⟩ | ⟨hf, hle⟩ | ⟨hf, hlt, hle⟩
  · refine honoursBudget_of (fun size => ?_) fun size plan hp => ?_
    · simp [resolve_of_fitBudget_err hr hf size]
    · cases (resolve_of_fitBudget_err hr hf size).symm.trans hp
  · refine honoursBudget_of (fun size => ?_) fun size plan hp => ?_
    · have ⟨plan, hp, _⟩ := resolve_of_fitBudget hr hf hb hle size
      simp [hp]
    · exact honours_of_fitBudget hr hf hb hle (.inl rfl) hp
  · have hle' : config.memoryBudget.toNat - config.overlap.toNat + config.overlap.toNat ≤
        config.memoryBudget.toNat := by omega
    refine honoursBudget_of (fun size => ?_) fun size plan hp => ?_
    · have ⟨plan, hp, _⟩ := resolve_of_fitBudget hr hf (by omega) hle' size
      simp [hp]
    · exact honours_of_fitBudget hr hf (by omega) hle' (.inr (by omega)) hp

end

section

attribute [local instance] OverflowChecks.on

theorem noPanic_of_honoursBudget (h : ∀ [OverflowChecks], config.HonoursBudget) :
    Plan.resolve config 0 ≠ .panic :=
  h.noPanic 0

-- With the checks, a sum that is no `u64` value panics.
theorem sumsFit_of_noPanic (hr : ¬config.Refused) (h : Plan.resolve config 0 ≠ .panic) : config.SumsFit := by
  simp only [Refused, not_or] at hr
  simp only [Plan.resolve, Exec.errIf_neg hr.1, Exec.errIf_neg hr.2.1, Exec.errIf_neg hr.2.2,
    Exec.ok_bind] at h
  have hs : config.blockSize.toNat + config.overlap.toNat < 2 ^ 64 := by
    by_contra hn
    rw [Plan.fitBudget, U64.add_eq_panic hn, Exec.panic_bind, Exec.panic_bind] at h
    exact h rfl
  refine ⟨hs, ?_⟩
  by_contra hn
  obtain ⟨hb, hm⟩ := not_or.mp hn
  simp only [Plan.fitBudget, U64.add_eq hs, Exec.ok_bind, if_pos (Nat.not_le.mp hb), U64.add_eq_panic hm,
    Exec.panic_bind] at h
  exact h rfl

end

-- The budget is honoured unless one of the sums wraps around, or panics where the profile checks it.
theorem honoursBudget_iff : (∀ [OverflowChecks], config.HonoursBudget) ↔
    (config.overlap = 0 ∨ config.blockSize = 0 ∨ config.threads = 0) ∨
      config.blockSize.toNat + config.overlap.toNat < 2 ^ 64 ∧
        (config.blockSize.toNat + config.overlap.toNat ≤ config.memoryBudget.toNat ∨
          4096 + config.overlap.toNat < 2 ^ 64) := by
  change _ ↔ config.Refused ∨ config.SumsFit
  by_cases hr : config.Refused
  case pos => exact ⟨fun _ => .inl hr, fun _ => honoursBudget_of_refused hr⟩
  case neg =>
    constructor
    case mp  => exact fun h => .inr <| sumsFit_of_noPanic hr <| noPanic_of_honoursBudget h
    case mpr => exact fun h => honoursBudget_of_sumsFit hr (h.resolve_left hr)

-- A sum that wraps around lets a block of almost 16 EiB pass a budget of a single byte.
def largestBlock : ScanConfig where
  blockSize    := 0xFFFFFFFFFFFFFFFF
  overlap      := 2
  threads      := 1
  memoryBudget := 1

theorem not_honoursBudget_largestBlock : @Plan.resolve OverflowChecks.on largestBlock 0 = .panic ∧
    (∃ plan, @Plan.resolve OverflowChecks.off largestBlock 0 = .ok plan ∧ plan.blockSize = 2 ^ 64 - 1) ∧
      ¬∀ [OverflowChecks], largestBlock.HonoursBudget := by
  have hp : @Plan.resolve OverflowChecks.on largestBlock 0 = .panic := by rfl
  refine ⟨hp, ⟨⟨2 ^ 64 - 1, 2, 1, 0, 0, by decide, by decide⟩, by rfl, rfl⟩, fun h => ?_⟩
  exact noPanic_of_honoursBudget h hp

end ScanConfig
end Latent
