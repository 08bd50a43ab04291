import Latent.Rust.Failure
import Latent.Scan.Engine

open Rust Search

namespace Latent

namespace Runtime

variable {ε β : Type} {rt : Runtime} {n : ℕ} {f : ℕ → Exec ε β}

-- The same libraries, with the blocks of a scan completing in another order.
def reordered (rt : Runtime) (completion : ℕ → List ℕ)
    (h : ∀ blocks, (completion blocks).Perm (List.range blocks)) : Runtime :=
  { rt with completion, completion_perm := h }

-- Of the blocks below `n`, all that fail do so in the same way.
def FailsAlike (f : ℕ → Exec ε β) (n : ℕ) : Prop :=
  Agrees (fun b => (f b).failure) (List.range n)

theorem failure_collect : (rt.collect n f).failure = (rt.completion n).findSome? fun b => (f b).failure := by
  rw [collect, Exec.failure_bind_of_total, Exec.failure_mapM]
  intro bs hbs
  refine Exec.exists_mapM_eq_ok fun b hb => ?_
  exact Exec.exists_of_mapM_eq_ok hbs ((rt.completion_perm n).mem_iff.mpr hb)

-- Without a failure the results are in the order of the blocks, whatever the order of completion.
theorem collect_eq_of_failure_eq_none (h : (rt.collect n f).failure = none) :
    rt.collect n f = (List.range n).mapM f := by
  have ⟨bs, hbs⟩ := Exec.failure_eq_none_iff.mp h
  have ⟨_, _, hr⟩ := Exec.bind_eq_ok.mp hbs
  rw [hbs, hr]

variable {c c₁ c₂ : ℕ → List ℕ} {h₁ : ∀ blocks, (c₁ blocks).Perm (List.range blocks)}
variable {h₂ : ∀ blocks, (c₂ blocks).Perm (List.range blocks)}

theorem collect_reordered_eq (hf : FailsAlike f n) :
    (rt.reordered c₁ h₁).collect n f = (rt.reordered c₂ h₂).collect n f := by
  have hfail : ∀ rt' : Runtime, (rt'.collect n f).failure = (List.range n).findSome? fun b => (f b).failure := by
    intro rt'
    rw [failure_collect]
    exact (findSome?_eq_of_perm hf (rt'.completion_perm n).symm).symm
  cases hn : (List.range n).findSome? fun b => (f b).failure with
  | none =>
    rw [collect_eq_of_failure_eq_none ((hfail _).trans hn), collect_eq_of_failure_eq_none ((hfail _).trans hn)]
  | some v => exact Exec.eq_of_failure ((hfail _).trans hn) ((hfail _).trans hn)

-- The order in which the block `b` completes first.
def firstBlock (b blocks : ℕ) : List ℕ :=
  if b < blocks then b :: (List.range blocks).erase b else List.range blocks

theorem firstBlock_perm (b blocks : ℕ) : (firstBlock b blocks).Perm (List.range blocks) := by
  rw [firstBlock]
  split
  case isTrue h => exact (List.perm_cons_erase (List.mem_range.mpr h)).symm
  case isFalse  => exact .refl _

theorem failure_collect_firstBlock {b : ℕ} {v : Option ε} (hb : b < n) (hv : (f b).failure = some v) :
    ((rt.reordered (firstBlock b) (firstBlock_perm b)).collect n f).failure = some v := by
  rw [failure_collect]
  simp only [reordered, firstBlock]
  rw [if_pos hb, List.findSome?_cons, hv]

end Runtime

namespace Scanner

section

variable [OverflowChecks] {patterns : List Bytes}

-- What a block takes from the source: the bytes of its region, or why it cannot have them.
def readBlock (source : Source) (plan : Plan) (block : ℕ) : Exec ScanError (Region × Bytes) := do
  let r ← plan.region block
  let buf ← (source.readExactAt r.start r.len).mapErr .source
  .ok (r, buf)

variable {s : Scanner patterns} {source : Source} {plan : Plan} {b : ℕ} {r : Region}

-- Once the bytes are there, the search gives a result. With overflow checks, the region would have been
-- refused if any offset in its owned part were beyond 2⁶⁴.
theorem exists_owned (ms : List Match) (h : plan.region b = .ok r) :
    ∃ owned hits, (U64.sub r.ownedEnd r.start : Exec ScanError ℕ) = .ok owned ∧
      (ms.filter fun m => m.start < owned).mapM (hitAt r.start) = .ok hits := by
  cases hc : OverflowChecks.enabled with
  | false =>
    obtain ⟨owned, ho⟩ : ∃ owned, (U64.sub r.ownedEnd r.start : Exec ScanError ℕ) = .ok owned :=
      U64.exists_sub hc ..
    have hhit : ∀ m ∈ ms.filter fun m => m.start < owned, ∃ hit, hitAt r.start m = .ok hit := by
      intro m _
      obtain ⟨offset, ha⟩ : ∃ offset, (U64.add r.start m.start : Exec ScanError ℕ) = .ok offset :=
        U64.exists_add hc ..
      exact ⟨_, by rw [hitAt, ha, Exec.ok_bind]⟩
    obtain ⟨hits, hh⟩ := Exec.exists_mapM_eq_ok hhit
    exact ⟨owned, hits, ho, hh⟩
  | true =>
    simp only [Plan.region, Exec.bind_eq_ok] at h
    obtain ⟨start, _, end₁, h₁, end₂, h₂, len, h₃, h⟩ := h
    cases h
    obtain ⟨hlt, he⟩ := U64.exact_of_add hc h₁
    obtain ⟨hle, _⟩ := U64.exact_of_sub hc h₃
    have hle : start ≤ plan.sourceSize := Nat.le_trans hle (Nat.min_le_right ..)
    have hfit : start + (min end₁ plan.sourceSize - start) < 2 ^ 64 := by omega
    exact ⟨_, _, U64.sub_eq (by simp only; omega), mapM_hitAt hfit⟩

-- So a block fails exactly when its read does, and in the same way.
theorem failure_scanBlock : (s.scanBlock source plan b).failure = (readBlock source plan b).failure := by
  have hs : s.scanBlock source plan b = (do
      let p ← readBlock source plan b
      let ownedLen ← U64.sub p.1.ownedEnd p.1.start
      let hits ← ((s.ac.findOverlapping p.2).filter fun m => m.start < ownedLen).mapM (hitAt p.1.start)
      .ok (hits.insertionSort (· ≤ ·))) := by
    simp only [scanBlock_eq_region, readBlock, bind_assoc, Exec.ok_bind]
  rw [hs, Exec.failure_bind_of_total]
  intro p hp
  obtain ⟨r, hr, hp⟩ := Exec.bind_eq_ok.mp hp
  obtain ⟨buf, _, hp⟩ := Exec.bind_eq_ok.mp hp
  cases hp
  have ⟨owned, hits, ho, hh⟩ := exists_owned (s.ac.findOverlapping buf) hr
  exact ⟨_, by rw [ho, Exec.ok_bind, hh, Exec.ok_bind]⟩

-- A scan gives the same value in whatever order its blocks complete.
def SchedulingIndependent (rt : Runtime) (s : Scanner patterns) (source : Source) : Prop :=
  ∀ c₁ h₁ c₂ h₂, s.scan (rt.reordered c₁ h₁) source = s.scan (rt.reordered c₂ h₂) source

variable {rt : Runtime}

theorem failsAlike_scanBlock {n : ℕ} :
    Runtime.FailsAlike (s.scanBlock source plan) n ↔ Runtime.FailsAlike (readBlock source plan) n := by
  simp only [Runtime.FailsAlike, failure_scanBlock]

theorem scan_eq_collect (hp : Plan.resolve s.config source.size = .ok plan)
    (hpool : rt.buildPool plan.workerThreads = .ok ()) :
    s.scan rt source = (do
      let perBlock ← rt.collect plan.blockCount (s.scanBlock source plan)
      .ok perBlock.flatten) := by
  simp only [scan, hp, hpool, Exec.ok_bind, Exec.mapErr_ok]
  split
  case isTrue h₀ =>
    have hc : rt.completion 0 = [] := (rt.completion_perm 0).eq_nil
    rw [h₀, Runtime.collect, hc]
    rfl
  case isFalse => rfl

theorem failure_scan (hp : Plan.resolve s.config source.size = .ok plan)
    (hpool : rt.buildPool plan.workerThreads = .ok ()) :
    (s.scan rt source).failure = (rt.collect plan.blockCount (s.scanBlock source plan)).failure := by
  rw [scan_eq_collect hp hpool]
  exact Exec.failure_bind_of_total fun perBlock _ => ⟨perBlock.flatten, rfl⟩

-- The order in which the blocks complete shows exactly when two of them fail in different ways.
theorem schedulingIndependent_iff (rt : Runtime) (s : Scanner patterns) (source : Source) :
    SchedulingIndependent rt s source ↔
      ∀ plan, Plan.resolve s.config source.size = .ok plan → rt.buildPool plan.workerThreads = .ok () →
        Runtime.FailsAlike (readBlock source plan) plan.blockCount := by
  constructor
  case mp =>
    intro h plan hp hpool
    rw [← failsAlike_scanBlock (s := s)]
    intro b hb b' hb' v v' hv hv'
    have hpool : ∀ c hc, (rt.reordered c hc).buildPool plan.workerThreads = .ok () := fun _ _ => hpool
    have hf : ((rt.reordered _ (Runtime.firstBlock_perm b)).collect plan.blockCount
        (s.scanBlock source plan)).failure = some v :=
      Runtime.failure_collect_firstBlock (List.mem_range.mp hb) hv
    have hf' : ((rt.reordered _ (Runtime.firstBlock_perm b')).collect plan.blockCount
        (s.scanBlock source plan)).failure = some v' :=
      Runtime.failure_collect_firstBlock (List.mem_range.mp hb') hv'
    rw [← failure_scan hp (hpool _ _)] at hf hf'
    have he := h _ (Runtime.firstBlock_perm b) _ (Runtime.firstBlock_perm b')
    exact Option.some.inj (hf.symm.trans ((congrArg Exec.failure he).trans hf'))
  case mpr =>
    intro h c₁ h₁ c₂ h₂
    cases hp : Plan.resolve s.config source.size with
    | ok plan =>
      cases hpool : rt.buildPool plan.workerThreads with
      | ok _ =>
        have hf := failsAlike_scanBlock (s := s) |>.mpr (h plan hp hpool)
        have hpool₁ : (rt.reordered c₁ h₁).buildPool plan.workerThreads = .ok () := hpool
        have hpool₂ : (rt.reordered c₂ h₂).buildPool plan.workerThreads = .ok () := hpool
        rw [scan_eq_collect hp hpool₁, scan_eq_collect hp hpool₂, Runtime.collect_reordered_eq hf]
      | err e => simp only [scan, hp, hpool, Runtime.reordered, Exec.ok_bind, Exec.mapErr_err, Exec.err_bind]
      | panic =>
        simp only [scan, hp, hpool, Runtime.reordered, Exec.ok_bind, Exec.mapErr_panic, Exec.panic_bind]
    | err e => simp only [scan, hp, Exec.err_bind]
    | panic => simp only [scan, hp, Exec.panic_bind]

end

attribute [local instance] OverflowChecks.on

-- A file of four bytes that lost all of them after it was opened. Both its blocks of two bytes fail, each
-- with its own offset in the error.
def emptied : RawSource where
  backing  := .positioned { bytes := [], pread := fun _ _ => .ok [] }
  size     := 4
  identity := { path := "disk.img", format := .raw }

theorem not_schedulingIndependent_emptied :
    ∃ s, new naiveRuntime [[65]] ⟨2, 1, 2, 4096⟩ = .ok s ∧
      ¬SchedulingIndependent naiveRuntime s emptied.toSource := by
  refine ⟨_, rfl, fun h => ?_⟩
  have he := h _ (Runtime.firstBlock_perm 0) _ (Runtime.firstBlock_perm 1)
  exact absurd he (by decide)

end Scanner
end Latent
