import Latent.Carve.Accounting
import Latent.Rust.Interleaving

open Rust

namespace Latent

-- No candidate is reported as decided that is not reported as seen.
def Diagnostics.Consistent (d : Diagnostics) : Prop :=
  ∀ stats ∈ d.perExtractor, stats.accepted + stats.rejected ≤ stats.seen

-- One atomic access to a counter.
inductive Access
  | add (a : Add)
  | load (owner : ℕ) (counter : Counter)
  deriving DecidableEq, Repr

-- At every point of a call, it has not decided more candidates than it has seen.
theorem Outcome.decided_le_seen {o : Outcome} {adds : List Add} {i : ℕ} (h : adds <+: o.adds) :
    Add.total adds i .accepted + Add.total adds i .rejected ≤ Add.total adds i .seen := by
  cases o with
  | unknown => simp [List.prefix_nil.mp h]
  | panicked owner =>
    simp only [Outcome.adds, List.prefix_cons_iff, List.prefix_nil] at h
    rcases h with rfl | ⟨_, rfl, rfl⟩ <;> simp [Add.share]
  | rejected owner =>
    simp only [Outcome.adds, List.prefix_cons_iff, List.prefix_nil] at h
    rcases h with rfl | ⟨_, rfl, rfl | ⟨_, rfl, rfl⟩⟩ <;> simp [Add.share]
  | accepted owner carved =>
    simp only [Outcome.adds, List.prefix_cons_iff, List.prefix_nil] at h
    rcases h with rfl | ⟨_, rfl, rfl | ⟨_, rfl, rfl | ⟨_, rfl, rfl⟩⟩⟩ <;> simp [Add.share]

theorem Outcome.decided_le_seen_of_prefix {outcomes : List Outcome} {adds : List Add} {i : ℕ}
    (h : adds <+: outcomes.flatMap Outcome.adds) :
    Add.total adds i .accepted + Add.total adds i .rejected ≤ Add.total adds i .seen := by
  induction outcomes generalizing adds with
  | nil => simp [List.prefix_nil.mp h]
  | cons o outcomes hi =>
    rw [List.flatMap_cons] at h
    rcases List.prefix_or_prefix_of_prefix h (List.prefix_append ..) with ho | ⟨rest, he⟩
    · exact Outcome.decided_le_seen ho
    · rw [← he] at h ⊢
      have hr := hi ((List.prefix_append_right_inj _).mp h)
      have ho : Add.total o.adds i .accepted + Add.total o.adds i .rejected ≤ Add.total o.adds i .seen :=
        Outcome.total_decided_le
      simp only [Add.total_append]
      omega

theorem Outcome.seen_le_length {outcomes : List Outcome} {i : ℕ} :
    Add.total (outcomes.flatMap Outcome.adds) i .seen ≤ outcomes.length := by
  induction outcomes with
  | nil => exact Nat.le_refl 0
  | cons o outcomes hi =>
    rw [List.flatMap_cons, Add.total_append, total_seen, List.length_cons]
    split <;> omega

namespace Access

variable {trace trace₁ trace₂ : List Access} {x y : Access}

-- The loads of `diagnostics`, in the order in which it fills in its statistics.
def loads (extractors : ℕ) : List Access :=
  (List.range extractors).flatMap fun owner =>
    [.load owner .seen, .load owner .accepted, .load owner .rejected, .load owner .emitted]

def isLoad : Access → Bool
  | load .. => true
  | add _   => false

def added : List Access → List Add
  | []              => []
  | add a :: trace   => a :: added trace
  | load .. :: trace => added trace

theorem added_append : added (trace₁ ++ trace₂) = added trace₁ ++ added trace₂ := by
  induction trace₁ with
  | nil => rfl
  | cons x trace hi => cases x <;> simp [added, hi]

theorem added_map (adds : List Add) : added (adds.map add) = adds := by
  induction adds with
  | nil => rfl
  | cons a adds hi => rw [List.map_cons, added, hi]

def share (i : ℕ) (k : Counter) : Access → ℕ
  | add a   => a.share i k
  | load .. => 0

theorem total_added {i : ℕ} {k : Counter} : Add.total (added trace) i k = (trace.map (share i k)).sum := by
  induction trace with
  | nil => rfl
  | cons x trace hi => cases x <;> simp [added, share, hi]

theorem added_prefix (h : trace₁ <+: trace₂) : added trace₁ <+: added trace₂ := by
  have ⟨rest, he⟩ := h
  exact ⟨added rest, he ▸ added_append.symm⟩

theorem total_perm {i : ℕ} {k : Counter} (h : trace₁.Perm trace₂) :
    Add.total (added trace₁) i k = Add.total (added trace₂) i k := by
  rw [total_added, total_added]
  exact (h.map _).sum_nat

theorem added_loads (n : ℕ) : added (loads n) = [] := by
  have hn : ∀ owners : List ℕ, added (owners.flatMap fun owner =>
      [.load owner .seen, .load owner .accepted, .load owner .rejected, .load owner .emitted]) = [] := by
    intro owners
    induction owners with
    | nil => rfl
    | cons owner owners hi => rw [List.flatMap_cons, added_append, hi]; rfl
  exact hn _

theorem nodup_loads (n : ℕ) : (loads n).Nodup := by
  rw [loads, List.nodup_flatMap]
  refine ⟨fun owner _ => by simp, ?_⟩
  refine List.nodup_range.imp fun {o₁ o₂} hne => ?_
  intro x h₁ h₂
  simp only [List.mem_cons, List.not_mem_nil, or_false] at h₁ h₂
  rcases h₁ with rfl | rfl | rfl | rfl <;> simp [hne] at h₂

theorem mem_loads {n i : ℕ} (h : i < n) (k : Counter) : load i k ∈ loads n :=
  List.mem_flatMap.mpr ⟨i, List.mem_range.mpr h, by cases k <;> simp⟩

-- `seen` is loaded before the other counters of its extractor.
theorem sublist_loads {n i : ℕ} {k : Counter} (h : i < n) (hk : k ≠ .seen) :
    [load i .seen, load i k].Sublist (loads n) := by
  refine .trans (.cons_cons _ (List.singleton_sublist.mpr ?_))
    (List.sublist_flatten_of_mem (List.mem_map.mpr ⟨i, List.mem_range.mpr h, rfl⟩))
  cases k with
  | seen => exact absurd rfl hk
  | accepted | rejected | emitted => simp

-- What happens up to an access, and what happens between two of them.
def before (x : Access) (trace : List Access) : List Access :=
  trace.takeWhile (decide <| · ≠ x)

def between (x y : Access) (trace : List Access) : List Access :=
  (trace.dropWhile (decide <| · ≠ x)).takeWhile (decide <| · ≠ y)

@[simp] theorem before_cons_self : before x (x :: trace) = [] := by
  simp [before]

theorem before_cons_of_ne (h : y ≠ x) : before x (y :: trace) = y :: before x trace := by
  simp [before, h]

theorem before_eq_append (h : x ∈ before y trace) : before y trace = before x trace ++ between x y trace := by
  induction trace with
  | nil => cases h
  | cons z trace hi =>
    simp only [before, between, List.takeWhile_cons, List.dropWhile_cons] at h hi ⊢
    by_cases hy : z = y
    case pos => simp [hy] at h
    case neg =>
      by_cases hx : z = x
      case pos => simp [hx, List.takeWhile_cons]
      case neg =>
        simp only [hy, hx, ne_eq, not_false_eq_true, decide_true, if_true, List.mem_cons,
          List.cons_append] at h ⊢
        rw [← hi (h.resolve_left fun he => hx he.symm)]

-- What has been added to a counter by the time it is loaded.
def found (i : ℕ) (k : Counter) (trace : List Access) : ℕ :=
  Add.total (added <| before (.load i k) trace) i k

-- The candidates that are still undecided when `seen` is loaded.
def inFlight (i : ℕ) (trace : List Access) : ℕ :=
  let adds := added <| before (.load i .seen) trace
  Add.total adds i .seen - (Add.total adds i .accepted + Add.total adds i .rejected)

-- The candidates that are decided in the time from the load of `seen` to the load that reports them.
def decidedMeanwhile (i : ℕ) (trace : List Access) : ℕ :=
  let meanwhile k := Add.total (added <| between (.load i .seen) (.load i k) trace) i k
  meanwhile .accepted + meanwhile .rejected

-- How often a counter has wrapped around by the time it is loaded.
def wraps (i : ℕ) (k : Counter) (trace : List Access) : ℕ :=
  found i k trace / 2 ^ 64

-- An access comes before another one if their thread makes them in this order.
theorem mem_before {p : Access → Bool} {l : List Access} (h : trace.filter p = l) (hn : l.Nodup)
    (hs : [x, y].Sublist l) (hy : p y) : x ∈ before y trace := by
  have hne : x ≠ y := fun he => by simpa [he] using hs.nodup hn
  induction trace generalizing l with
  | nil =>
    rw [← h] at hs
    cases hs
  | cons z trace hi =>
    have hzy : z ≠ y := by
      intro he
      rw [he, List.filter_cons_of_pos hy] at h
      rw [← h] at hs hn
      cases hs with
      | cons _ hs => exact (List.nodup_cons.mp hn).1 (hs.subset (by simp))
      | cons_cons => exact hne rfl
    rw [before_cons_of_ne hzy]
    by_cases hzx : z = x
    case pos => exact hzx ▸ List.mem_cons_self
    case neg =>
      refine List.mem_cons_of_mem _ ?_
      by_cases hz : p z
      case pos =>
        rw [List.filter_cons_of_pos hz] at h
        rw [← h] at hs hn
        cases hs with
        | cons _ hs => exact hi rfl (List.nodup_cons.mp hn).2 hs
        | cons_cons => exact absurd rfl hzx
      case neg =>
        rw [List.filter_cons_of_neg hz] at h
        exact hi h hn hs

end Access

namespace Registry

variable {extractors : List Extractor} {reg : Registry} {source : Source} {i owner : ℕ} {k : Counter}
variable {trace : List Access}

-- What the loads find, in their order.
def observe (reg : Registry) : List Access → List ((ℕ × Counter) × ℕ)
  | []                           => []
  | .add a :: trace              => observe (reg.perform a) trace
  | .load owner counter :: trace =>
    ((owner, counter), ((reg.counters[owner]?).map (·.get counter)).getD 0) :: observe reg trace

-- The result of a call of `diagnostics` whose loads have other accesses between them.
def snapshot (reg : Registry) (trace : List Access) : Diagnostics where
  perExtractor := reg.extractors.zipIdx.map fun (e, owner) =>
    let loaded counter := ((reg.observe trace).lookup (owner, counter)).getD 0
    { name     := e.metadata.name
      seen     := loaded .seen
      accepted := loaded .accepted
      rejected := loaded .rejected
      emitted  := loaded .emitted }

theorem lookup_observe (h : .load owner k ∈ trace) : (reg.observe trace).lookup (owner, k) =
    some (((((Access.added (Access.before (.load owner k) trace)).foldl perform reg).counters[owner]?).map
      (·.get k)).getD 0) := by
  induction trace generalizing reg with
  | nil => cases h
  | cons x trace hi =>
    cases x with
    | add a =>
      have hm : .load owner k ∈ trace := by simpa using h
      rw [observe, hi hm, Access.before_cons_of_ne (by simp), Access.added]
      rfl
    | load o c =>
      by_cases he : Access.load o c = .load owner k
      case pos =>
        cases he
        simp [observe, Access.added]
      case neg =>
        have hm : .load owner k ∈ trace := by simpa [Ne.symm he] using h
        have hne : ((owner, k) == (o, c)) = false := by
          refine beq_false_of_ne fun h => he ?_
          cases h
          rfl
        rw [observe, List.lookup_cons, hne, hi hm, Access.before_cons_of_ne he, Access.added]

theorem lookup_observe_loads (h : i < reg.extractors.length) (k : Counter) :
    (reg.observe (Access.loads reg.extractors.length)).lookup (i, k) =
      some (((reg.counters[i]?).map (·.get k)).getD 0) := by
  have ⟨rest, he⟩ := Access.added_prefix
    (List.takeWhile_prefix (l := Access.loads reg.extractors.length) (decide <| · ≠ .load i k))
  rw [Access.added_loads, List.append_eq_nil_iff] at he
  rw [lookup_observe (Access.mem_loads h k), Access.before, he.1, List.foldl_nil]

-- With nothing between its loads, `diagnostics` gives the counters as they are.
theorem snapshot_loads (reg : Registry) :
    reg.snapshot (Access.loads reg.extractors.length) = reg.diagnostics := by
  rw [snapshot, diagnostics, Diagnostics.mk.injEq]
  refine List.ext_getElem (by simp [reg.length_counters]) fun i h₁ h₂ => ?_
  have hi : i < reg.extractors.length := by simpa using h₁
  have hc : i < reg.counters.length := reg.length_counters ▸ hi
  simp only [List.getElem_map, List.getElem_zipIdx, List.getElem_zip, Nat.zero_add,
    lookup_observe_loads hi, List.getElem?_eq_getElem hc, Option.map_some, Option.getD_some]
  rfl

section

variable [OverflowChecks]

-- The accesses of a worker that is given these candidates.
def accesses (reg : Registry) (source : Source) (hits : List (ℕ × ℕ)) : List Access :=
  (hits.flatMap fun hit => (reg.outcome source hit.1 hit.2).adds).map .add

-- Workers process their candidates while `diagnostics` is called.
def Concurrent (reg : Registry) (source : Source) (workers : List (List (ℕ × ℕ))) (trace : List Access) : Prop :=
  Interleaving (Access.loads reg.extractors.length :: workers.map (reg.accesses source)) trace

variable {workers : List (List (ℕ × ℕ))} {past : List Access} {hits : List (ℕ × ℕ)}

theorem filter_isLoad (h : reg.Concurrent source workers trace) :
    trace.filter Access.isLoad = Access.loads reg.extractors.length := by
  have hf := h.filter Access.isLoad
  rw [List.map_cons, List.map_map] at hf
  have hl : (Access.loads reg.extractors.length).filter Access.isLoad = Access.loads reg.extractors.length := by
    rw [List.filter_eq_self]
    intro x hx
    simp only [Access.loads, List.mem_flatMap, List.mem_cons, List.not_mem_nil, or_false] at hx
    obtain ⟨_, _, rfl | rfl | rfl | rfl⟩ := hx <;> rfl
  rw [hl] at hf
  refine hf.eq_of_alone fun l hm => ?_
  obtain ⟨hits, _, he⟩ := List.mem_map.mp hm
  rw [← he, Function.comp_apply, List.filter_eq_nil_iff]
  intro x hx
  obtain ⟨a, _, ha⟩ := List.mem_map.mp hx
  rw [← ha]
  exact Bool.false_ne_true

theorem added_accesses : Access.added (reg.accesses source hits) =
    (hits.map fun hit => reg.outcome source hit.1 hit.2).flatMap Outcome.adds := by
  rw [accesses, Access.added_map, List.flatMap_map]

-- At every point of a run, no extractor has more decided candidates than seen ones.
theorem decided_le_seen (h : reg.Concurrent source workers trace) (hp : past <+: trace) :
    Add.total (Access.added past) i .accepted + Add.total (Access.added past) i .rejected ≤
      Add.total (Access.added past) i .seen := by
  have ⟨sofar, hf, hi⟩ := h.of_prefix hp
  simp only [Access.total_perm hi.perm]
  cases hf with
  | @cons done _ dones _ hl hw =>
    have hn : Access.added done = [] := by
      have hd := Access.added_prefix hl
      rwa [Access.added_loads, List.prefix_nil] at hd
    rw [List.flatten_cons, Access.added_append, hn, List.nil_append]
    clear h hi
    induction workers generalizing dones with
    | nil => cases hw; simp [Access.added]
    | cons hits workers hr =>
      cases hw with
      | @cons done _ dones _ hd hw =>
        have hd := Access.added_prefix hd
        rw [added_accesses] at hd
        have h₁ := Outcome.decided_le_seen_of_prefix (i := i) hd
        have h₂ := hr hw
        simp only [List.flatten_cons, Access.added_append, Add.total_append]
        omega

-- An extractor sees no more candidates than the workers have.
theorem seen_le_calls (h : reg.Concurrent source workers trace) :
    Add.total (Access.added trace) i .seen ≤ (workers.map List.length).sum := by
  rw [Access.total_perm h.perm, List.flatten_cons, Access.added_append, Access.added_loads, List.nil_append]
  clear h
  induction workers with
  | nil => simp [Access.added]
  | cons hits workers hi =>
    have hs : _ ≤ (hits.map fun hit => reg.outcome source hit.1 hit.2).length := Outcome.seen_le_length (i := i)
    rw [List.length_map] at hs
    simp only [List.map_cons, List.flatten_cons, Access.added_append, Add.total_append, added_accesses,
      List.sum_cons]
    omega

section

variable (h : (build extractors).Concurrent source workers trace) (hlt : owner < extractors.length)

include h hlt

-- A load finds what has been added to the counter before, and the counter wraps around.
theorem lookup_observe_build (k : Counter) :
    ((build extractors).observe trace).lookup (owner, k) = some (Access.found owner k trace % 2 ^ 64) := by
  have hm : .load owner k ∈ trace := List.mem_of_mem_filter (filter_isLoad h ▸ Access.mem_loads hlt k)
  have hc : (build extractors).counters[owner]? = some {} := by
    rw [build, List.getElem?_map, List.getElem?_eq_getElem hlt, Option.map_some]
  obtain ⟨c, hc, hv⟩ := counters_foldl_perform (Access.added (Access.before (.load owner k) trace)) hc
    (get_counters_build (List.mem_of_getElem? hc))
  have hz : ({} : Counters).get k = 0 := by cases k <;> rfl
  rw [lookup_observe hm, hc, Option.map_some, Option.getD_some, hv, hz, Nat.zero_add, Access.found]

omit hlt in
-- What a later load finds that `seen` did not wait for.
theorem found_eq (hk : [.load owner .seen, .load owner k].Sublist (Access.loads extractors.length)) :
    Access.found owner k trace =
      Add.total (Access.added <| Access.before (.load owner .seen) trace) owner k +
        Add.total (Access.added <| Access.between (.load owner .seen) (.load owner k) trace) owner k := by
  have hb := Access.mem_before (filter_isLoad h) (Access.nodup_loads _) hk rfl
  rw [Access.found, Access.before_eq_append hb, Access.added_append, Add.total_append]

theorem found_decided : Access.found owner .accepted trace + Access.found owner .rejected trace +
    Access.inFlight owner trace = Access.found owner .seen trace + Access.decidedMeanwhile owner trace := by
  have h₁ := found_eq h (Access.sublist_loads hlt (k := .accepted) (by decide))
  have h₂ := found_eq h (Access.sublist_loads hlt (k := .rejected) (by decide))
  have hd := decided_le_seen (i := owner) h (List.takeWhile_prefix (decide <| · ≠ .load owner .seen))
  have hf : Access.found owner .seen trace =
      Add.total (Access.added <| Access.before (.load owner .seen) trace) owner .seen := rfl
  simp only [Access.inFlight, Access.decidedMeanwhile, Access.before] at *
  omega

end

theorem consistent_snapshot (h : (build extractors).Concurrent source workers trace) :
    ((build extractors).snapshot trace).Consistent ↔ ∀ i < extractors.length,
      Access.found i .accepted trace % 2 ^ 64 + Access.found i .rejected trace % 2 ^ 64 ≤
        Access.found i .seen trace % 2 ^ 64 := by
  simp only [Diagnostics.Consistent, snapshot, List.mem_map, forall_exists_index, and_imp]
  constructor
  case mp =>
    intro hc i hi
    have hm : (extractors[i], i) ∈ extractors.zipIdx := by
      simp [List.mem_zipIdx_iff_getElem?, List.getElem?_eq_getElem hi]
    simpa only [lookup_observe_build h hi, Option.getD_some] using hc _ _ hm rfl
  case mpr =>
    rintro hc _ ⟨e, i⟩ hm rfl
    have hi : i < extractors.length := by
      have := List.mem_zipIdx_iff_getElem?.mp hm
      exact (List.getElem?_eq_some_iff.mp this).1
    simpa only [lookup_observe_build h hi, Option.getD_some] using hc i hi

theorem wraps_eq_zero (h : (build extractors).Concurrent source workers trace)
    (hn : (workers.map List.length).sum < 2 ^ 64) (hk : k ≠ .emitted) : Access.wraps owner k trace = 0 := by
  have hp : Access.before (.load owner k) trace <+: trace := List.takeWhile_prefix _
  have ⟨rest, he⟩ := Access.added_prefix hp
  have hd := decided_le_seen (i := owner) h hp
  have hs := seen_le_calls (i := owner) h
  rw [← he, Add.total_append] at hs
  refine Nat.div_eq_of_lt (Nat.lt_of_le_of_lt ?_ hn)
  rw [Access.found]
  cases k with
  | emitted => exact absurd rfl hk
  | seen | accepted | rejected => omega

-- The snapshot is consistent when, for each extractor, the time between the loads decides no more
-- candidates than were undecided when `seen` was loaded. Wrapped counters count for their wraps.
theorem consistent_iff (h : (build extractors).Concurrent source workers trace) :
    (((build extractors).snapshot trace).Consistent ↔ ∀ i < extractors.length,
      Access.decidedMeanwhile i trace + 2 ^ 64 * Access.wraps i .seen trace ≤
        Access.inFlight i trace + 2 ^ 64 * (Access.wraps i .accepted trace + Access.wraps i .rejected trace)) ∧
    ((workers.map List.length).sum < 2 ^ 64 →
      (((build extractors).snapshot trace).Consistent ↔ ∀ i < extractors.length,
        Access.decidedMeanwhile i trace ≤ Access.inFlight i trace)) := by
  have hc : ((build extractors).snapshot trace).Consistent ↔ ∀ i < extractors.length,
      Access.decidedMeanwhile i trace + 2 ^ 64 * Access.wraps i .seen trace ≤
        Access.inFlight i trace + 2 ^ 64 * (Access.wraps i .accepted trace + Access.wraps i .rejected trace) := by
    rw [consistent_snapshot h]
    refine forall₂_congr fun i hi => ?_
    have hd := found_decided h hi
    simp only [Access.wraps]
    omega
  refine ⟨hc, fun hn => hc.trans <| forall₂_congr fun i _ => ?_⟩
  rw [wraps_eq_zero h hn (by decide), wraps_eq_zero h hn (by decide), wraps_eq_zero h hn (by decide)]
  rfl

end

attribute [local instance] Sha256.standard OverflowChecks.on

def lateTrace : List Access :=
  [.load 0 .seen, .add ⟨0, .seen, 1⟩, .add ⟨0, .accepted, 1⟩, .load 0 .accepted, .load 0 .rejected,
    .load 0 .emitted, .add ⟨0, .emitted, 1⟩]

theorem concurrent_late : (build [marker "a" [[65]]]).Concurrent (rawSource [65]) [[(0, 0)]] lateTrace := by
  have ha : (build [marker "a" [[65]]]).accesses (rawSource [65]) [(0, 0)] =
      [.add ⟨0, .seen, 1⟩, .add ⟨0, .accepted, 1⟩, .add ⟨0, .emitted, 1⟩] := by decide +kernel
  rw [Concurrent, List.map_cons, List.map_nil, ha]
  refine .step (i := 0) rfl <| .step (i := 1) rfl <| .step (i := 1) rfl <| .step (i := 0) rfl <|
    .step (i := 0) rfl <| .step (i := 0) rfl <| .step (i := 1) rfl <| .done ?_
  simp

-- A candidate that arrives after `seen` is loaded is decided before `accepted` is.
theorem not_consistent_of_late :
    (build [marker "a" [[65]]]).Concurrent (rawSource [65]) [[(0, 0)]] lateTrace ∧
    ((build [marker "a" [[65]]]).snapshot lateTrace).perExtractor = [⟨"a", 0, 1, 0, 0⟩] ∧
    ¬((build [marker "a" [[65]]]).snapshot lateTrace).Consistent := by
  refine ⟨concurrent_late, by decide +kernel, ?_⟩
  intro h
  exact absurd (h ⟨"a", 0, 1, 0, 0⟩ (by decide +kernel)) (by decide)

theorem consistent_iff_late : ¬Access.decidedMeanwhile 0 lateTrace ≤ Access.inFlight 0 lateTrace ∧
    ¬((build [marker "a" [[65]]]).snapshot lateTrace).Consistent := by
  have hd : ¬Access.decidedMeanwhile 0 lateTrace ≤ Access.inFlight 0 lateTrace := by decide
  exact ⟨hd, fun hc => hd <| ((consistent_iff concurrent_late).2 (by decide)).mp hc 0 (by decide)⟩

end Registry
end Latent
