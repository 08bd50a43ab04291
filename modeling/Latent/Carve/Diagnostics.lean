import Latent.Carve.Pipeline

open Rust

namespace Latent

structure ExtractorStats where
  name     : String
  seen     : ℕ
  accepted : ℕ
  rejected : ℕ
  emitted  : ℕ
  deriving DecidableEq, Repr

structure Diagnostics where
  perExtractor : List ExtractorStats
  deriving DecidableEq, Repr

inductive Counter
  | seen
  | accepted
  | rejected
  | emitted
  deriving DecidableEq, Repr

namespace Counters

variable {c : Counters} {k k' : Counter} {n : ℕ}

def get (c : Counters) : Counter → ℕ
  | .seen     => c.seen
  | .accepted => c.accepted
  | .rejected => c.rejected
  | .emitted  => c.emitted

-- `fetch_add` on one of the counters.
def bump (c : Counters) : Counter → ℕ → Counters
  | .seen, n     => { c with seen := fetchAdd c.seen n }
  | .accepted, n => { c with accepted := fetchAdd c.accepted n }
  | .rejected, n => { c with rejected := fetchAdd c.rejected n }
  | .emitted, n  => { c with emitted := fetchAdd c.emitted n }

@[simp] theorem get_bump_self : (c.bump k n).get k = (c.get k + n) % 2 ^ 64 := by
  cases k <;> rfl

theorem get_bump_of_ne (h : k ≠ k') : (c.bump k n).get k' = c.get k' := by
  cases k <;> cases k' <;> first | rfl | exact absurd rfl h

theorem ext_get {c₁ c₂ : Counters} (h : ∀ k, c₁.get k = c₂.get k) : c₁ = c₂ := by
  have h₁ := h .seen
  have h₂ := h .accepted
  have h₃ := h .rejected
  have h₄ := h .emitted
  cases c₁; cases c₂
  simp only [get] at h₁ h₂ h₃ h₄
  rw [h₁, h₂, h₃, h₄]

def stats (c : Counters) (name : String) : ExtractorStats where
  name     := name
  seen     := c.get .seen
  accepted := c.get .accepted
  rejected := c.get .rejected
  emitted  := c.get .emitted

end Counters

-- An atomic addition to a counter of one of the extractors.
structure Add where
  owner   : ℕ
  counter : Counter
  amount  : ℕ
  deriving DecidableEq, Repr

namespace Add

variable {adds adds₁ adds₂ : List Add} {a : Add} {i : ℕ} {k : Counter}

def share (i : ℕ) (k : Counter) (a : Add) : ℕ :=
  if a.owner = i ∧ a.counter = k then a.amount else 0

-- What is added to one counter in all, over exact integers.
def total (adds : List Add) (i : ℕ) (k : Counter) : ℕ :=
  (adds.map (share i k)).sum

@[simp] theorem total_nil : total [] i k = 0 :=
  rfl

@[simp] theorem total_cons : total (a :: adds) i k = a.share i k + total adds i k := by
  simp [total]

@[simp] theorem total_append : total (adds₁ ++ adds₂) i k = total adds₁ i k + total adds₂ i k := by
  simp [total]

theorem total_perm (h : adds₁.Perm adds₂) : total adds₁ i k = total adds₂ i k :=
  (h.map _).sum_nat

end Add

-- What a call of `extract_hit` comes to.
inductive Outcome
  | unknown
  | panicked (owner : ℕ)
  | rejected (owner : ℕ)
  | accepted (owner : ℕ) (carved : List Carved)
  deriving DecidableEq, Repr

namespace Outcome

def owner : Outcome → Option ℕ
  | unknown          => none
  | panicked owner   => some owner
  | rejected owner   => some owner
  | accepted owner _ => some owner

def carved : Outcome → List Carved
  | accepted _ carved => carved
  | _                 => []

-- The additions that the call makes, in their order.
def adds : Outcome → List Add
  | unknown               => []
  | panicked owner        => [⟨owner, .seen, 1⟩]
  | rejected owner        => [⟨owner, .seen, 1⟩, ⟨owner, .rejected, 1⟩]
  | accepted owner carved => [⟨owner, .seen, 1⟩, ⟨owner, .accepted, 1⟩, ⟨owner, .emitted, carved.length⟩]

variable {o : Outcome} {i : ℕ}

theorem total_seen : Add.total o.adds i .seen = if o.owner = some i then 1 else 0 := by
  cases o <;> simp [adds, owner, Add.share]

-- A candidate is decided at most once, and exactly once if nothing panics on the way.
theorem total_decided_le :
    Add.total o.adds i .accepted + Add.total o.adds i .rejected ≤ Add.total o.adds i .seen := by
  cases o <;> simp [adds, Add.share]

theorem total_decided (h : ∀ owner, o ≠ panicked owner) :
    Add.total o.adds i .accepted + Add.total o.adds i .rejected = Add.total o.adds i .seen := by
  cases o with
  | panicked owner => exact absurd rfl (h owner)
  | unknown | rejected | accepted => simp [adds, Add.share]

theorem total_emitted : Add.total o.adds i .emitted = if o.owner = some i then o.carved.length else 0 := by
  cases o <;> simp [adds, owner, carved, Add.share]

end Outcome

namespace Registry

variable {reg : Registry} {i : ℕ} {k : Counter} {source : Source}

def diagnostics (reg : Registry) : Diagnostics where
  perExtractor := (reg.extractors.zip reg.counters).map fun (e, c) => c.stats e.metadata.name

def perform (reg : Registry) (a : Add) : Registry :=
  reg.count a.owner (·.bump a.counter a.amount)

theorem counters_perform (a : Add) {c : Counters} (h : reg.counters[i]? = some c) :
    ∃ c', (reg.perform a).counters[i]? = some c' ∧ ∀ k, c.get k < 2 ^ 64 →
      c'.get k = (c.get k + a.share i k) % 2 ^ 64 := by
  by_cases ho : a.owner = i
  case pos =>
    refine ⟨c.bump a.counter a.amount, by simp [perform, count, ho, h], fun k hk => ?_⟩
    by_cases hc : a.counter = k
    case pos => rw [Add.share, if_pos ⟨ho, hc⟩, hc, Counters.get_bump_self]
    case neg =>
      rw [Add.share, if_neg fun h => hc h.2, Counters.get_bump_of_ne hc]
      exact (Nat.mod_eq_of_lt hk).symm
  case neg =>
    refine ⟨c, by simp [perform, count, ho, h], fun k hk => ?_⟩
    rw [Add.share, if_neg fun h => ho h.1]
    exact (Nat.mod_eq_of_lt hk).symm

-- A counter ends up at what is added to it, up to the wrap-around of `fetch_add`.
theorem counters_foldl_perform (adds : List Add) {c : Counters} (h : reg.counters[i]? = some c)
    (hlt : ∀ k, c.get k < 2 ^ 64) :
    ∃ c', (adds.foldl perform reg).counters[i]? = some c' ∧
      ∀ k, c'.get k = (c.get k + Add.total adds i k) % 2 ^ 64 := by
  induction adds generalizing reg c with
  | nil => exact ⟨c, h, fun k => (Nat.mod_eq_of_lt (hlt k)).symm⟩
  | cons a adds hi =>
    have ⟨c₁, h₁, hk₁⟩ := counters_perform a h
    have ⟨c₂, h₂, hk₂⟩ := hi h₁ fun k => hk₁ k (hlt k) ▸ Nat.mod_lt _ (by decide)
    refine ⟨c₂, h₂, fun k => ?_⟩
    rw [hk₂, hk₁ k (hlt k), Nat.mod_add_mod, Add.total_cons, Nat.add_assoc]

theorem extractors_foldl_perform (adds : List Add) : (adds.foldl perform reg).extractors = reg.extractors := by
  induction adds generalizing reg with
  | nil => rfl
  | cons a adds hi => exact hi

-- So the order of the additions makes no difference.
theorem counters_perm {adds₁ adds₂ : List Add} (h : adds₁.Perm adds₂)
    (hlt : ∀ c ∈ reg.counters, ∀ k, c.get k < 2 ^ 64) :
    (adds₁.foldl perform reg).counters = (adds₂.foldl perform reg).counters := by
  apply List.ext_getElem?
  intro i
  cases hc : reg.counters[i]? with
  | none =>
    have hn : ∀ adds : List Add, (adds.foldl perform reg).counters[i]? = none := by
      intro adds
      rw [List.getElem?_eq_none_iff, length_counters, extractors_foldl_perform, ← reg.length_counters]
      exact List.getElem?_eq_none_iff.mp hc
    rw [hn, hn]
  | some c =>
    have hk := hlt c (List.mem_of_getElem? hc)
    have ⟨c₁, h₁, hk₁⟩ := counters_foldl_perform adds₁ hc hk
    have ⟨c₂, h₂, hk₂⟩ := counters_foldl_perform adds₂ hc hk
    have he : c₁ = c₂ := Counters.ext_get fun k => by rw [hk₁, hk₂, Add.total_perm h]
    rw [h₁, h₂, he]

theorem count_count {f g : Counters → Counters} :
    (reg.count i f).count i g = reg.count i fun c => g (f c) := by
  simp [count, List.modify_modify_eq, Function.comp_def]

theorem foldl_perform_accepted (owner : ℕ) (carved : List Carved) :
    (Outcome.accepted owner carved).adds.foldl perform reg =
      (reg.count owner .see).count owner (.accept · carved.length) := by
  simp only [Outcome.adds, List.foldl_cons, List.foldl_nil, perform, count_count]
  rfl

theorem patternOwner_foldl_perform (adds : List Add) :
    (adds.foldl perform reg).patternOwner = reg.patternOwner := by
  induction adds generalizing reg with
  | nil => rfl
  | cons a adds hi => exact hi

theorem exists_owner {id owner : ℕ} (h : reg.patternOwner[id]? = some owner) :
    ∃ e, reg.extractors[owner]? = some e := by
  have hlt : id < reg.patterns.length := reg.length_owner ▸ (List.getElem?_eq_some_iff.mp h).1
  have ⟨e, he, _⟩ := reg.owned h (List.getElem?_eq_getElem hlt)
  exact ⟨e, he⟩

end Registry

section

variable [OverflowChecks] {source : Source} {reg : Registry} {e : Extractor}

-- A read either gives the bytes or fails, and an extractor either accepts or rejects.
def Source.NeverPanics (source : Source) : Prop :=
  ∀ offset len, source.readExactAt offset len ≠ .panic

theorem Source.Conforming.neverPanics {content : Bytes} (hc : source.Conforming content) :
    source.NeverPanics := by
  intro offset len
  cases len with
  | zero => simp [Source.readExactAt, Source.readExactAt.go]
  | succ len => rcases hc.readExactAt_cases offset len.succ_pos with ⟨_, h⟩ | ⟨_, _, h⟩ <;> simp [h]

def Extractor.NeverPanics (e : Extractor) : Prop :=
  ∀ offset data, e.extract offset data ≠ .panic

-- What the extractor makes of the candidate at an offset.
def Extractor.onWindow (e : Extractor) (source : Source) (offset : ℕ) : Exec Unit (List Carved) := do
  let buf ← (source.readExactAt offset (min e.maxStructureSize (source.size - offset))).toOption
  (e.extract offset buf).toOption

theorem Extractor.onWindow_ne_panic {e : Extractor} (hs : source.NeverPanics) (he : e.NeverPanics)
    (offset : ℕ) : e.onWindow source offset ≠ .panic := by
  simp only [onWindow]
  cases hr : source.readExactAt offset (min e.maxStructureSize (source.size - offset)) with
  | panic  => exact absurd hr (hs _ _)
  | err _  => simp
  | ok buf =>
    simp only [Exec.toOption_ok, Exec.ok_bind]
    cases hc : e.extract offset buf with
    | panic => exact absurd hc (he _ _)
    | err _ => simp
    | ok _  => simp

namespace Registry

def outcome (reg : Registry) (source : Source) (offset id : ℕ) : Outcome :=
  match reg.patternOwner[id]? with
  | none       => .unknown
  | some owner =>
    match reg.extractors[owner]? with
    | none   => .unknown
    | some e =>
      match e.onWindow source offset with
      | .ok carved => .accepted owner carved
      | .err _     => .rejected owner
      | .panic     => .panicked owner

-- A call returns what its outcome says and makes the additions that it stands for.
theorem extractHit_outcome (reg : Registry) (source : Source) (offset id : ℕ) : reg.extractHit source offset id =
    match reg.outcome source offset id with
    | .panicked _ => .panic
    | o           => .ok (o.carved, o.adds.foldl perform reg) := by
  cases hid : reg.patternOwner[id]? with
  | none => simp only [extractHit, outcome, hid]; rfl
  | some owner =>
    obtain ⟨e, hx⟩ := exists_owner hid
    simp only [extractHit, outcome, hid, hx, Extractor.onWindow, Exec.unwrap_some, Exec.ok_bind,
      U64.saturatingSub]
    cases hr : source.readExactAt offset (min e.maxStructureSize (source.size - offset)) with
    | panic => rfl
    | err _ => rfl
    | ok buf =>
      simp only [Exec.toOption_ok, Exec.ok_bind]
      cases hc : e.extract offset buf with
      | panic     => rfl
      | err _     => rfl
      | ok carved =>
        change _ = Exec.ok (carved, (Outcome.accepted owner carved).adds.foldl perform reg)
        rw [foldl_perform_accepted]

theorem outcome_ne_panicked (hs : source.NeverPanics) (he : ∀ e ∈ reg.extractors, e.NeverPanics)
    (offset id owner : ℕ) : reg.outcome source offset id ≠ .panicked owner := by
  cases hid : reg.patternOwner[id]? with
  | none => simp [outcome, hid]
  | some owner =>
    have ⟨e, hx⟩ := exists_owner hid
    have hp := Extractor.onWindow_ne_panic hs (he e (List.mem_of_getElem? hx)) offset
    simp only [outcome, hid, hx]
    cases hw : e.onWindow source offset with
    | panic => exact absurd hw hp
    | err _ => simp
    | ok _  => simp

theorem extractHit_eq_outcome (hs : source.NeverPanics) (he : ∀ e ∈ reg.extractors, e.NeverPanics)
    (offset id : ℕ) : reg.extractHit source offset id =
      .ok ((reg.outcome source offset id).carved, (reg.outcome source offset id).adds.foldl perform reg) := by
  have hn := outcome_ne_panicked hs he offset id
  rw [extractHit_outcome]
  split
  case h_1 owner ho => exact absurd ho (hn owner)
  case h_2 => rfl

theorem outcome_foldl_perform (adds : List Add) (offset id : ℕ) :
    (adds.foldl perform reg).outcome source offset id = reg.outcome source offset id := by
  simp only [outcome, extractors_foldl_perform, patternOwner_foldl_perform]

-- A run returns what its calls return and makes all of their additions.
theorem extractHits_eq_outcomes (hs : source.NeverPanics) (he : ∀ e ∈ reg.extractors, e.NeverPanics)
    (hits : List (ℕ × ℕ)) : extractHits source reg hits =
      .ok (hits.flatMap fun hit => (reg.outcome source hit.1 hit.2).carved,
        (hits.flatMap fun hit => (reg.outcome source hit.1 hit.2).adds).foldl perform reg) := by
  induction hits generalizing reg with
  | nil => rfl
  | cons hit hits hi =>
    have hx : ∀ e ∈ ((reg.outcome source hit.1 hit.2).adds.foldl perform reg).extractors, e.NeverPanics := by
      rwa [extractors_foldl_perform]
    have hr := hi hx
    simp only [outcome_foldl_perform] at hr
    simp only [extractHits, extractHit_eq_outcome hs he, Exec.ok_bind, hr, List.flatMap_cons, List.foldl_append]

end Registry
end
end Latent
