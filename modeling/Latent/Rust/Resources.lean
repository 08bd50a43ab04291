import Latent.Rust.Interleaving
import Mathlib.Logic.Function.Basic

namespace Rust

-- What a step does to one resource: the state it needs it in, and the state it leaves it in. There is
-- none where the resource is not held.
structure Effect (κ σ : Type) where
  key    : κ
  before : Option σ
  after  : Option σ
  deriving DecidableEq, Repr

namespace Effect

variable {κ σ : Type}

def acquire (key : κ) (state : σ) : Effect κ σ where
  key    := key
  before := none
  after  := some state

def move (key : κ) (before after : σ) : Effect κ σ where
  key    := key
  before := some before
  after  := some after

def use (key : κ) (state : σ) : Effect κ σ :=
  move key state state

def release (key : κ) (state : σ) : Effect κ σ where
  key    := key
  before := some state
  after  := none

end Effect

-- The resources that are held, each with its state.
abbrev Held (κ σ : Type) :=
  κ → Option σ

namespace Held

variable {κ σ : Type}

def nothing : Held κ σ :=
  fun _ => none

@[simp] theorem nothing_apply (key : κ) : (nothing : Held κ σ) key = none :=
  rfl

variable [DecidableEq κ]

def only (key : κ) (state : σ) : Held κ σ :=
  Function.update nothing key (some state)

theorem only_eq_some_iff {key k : κ} {state s : σ} : only key state k = some s ↔ k = key ∧ s = state := by
  by_cases hk : k = key
  case pos => simp [only, hk, eq_comm]
  case neg => simp [only, hk, nothing]

@[simp] theorem update_nothing (key : κ) : Function.update (nothing : Held κ σ) key none = nothing :=
  Function.update_eq_self key nothing

@[simp] theorem update_only (key : κ) (state : σ) (after : Option σ) :
    Function.update (only key state) key after = Function.update nothing key after :=
  Function.update_idem ..

variable [DecidableEq σ]

-- A step on a resource that is not held in the state that the step needs is a violation.
def apply (held : Held κ σ) (e : Effect κ σ) : Option (Held κ σ) :=
  if held e.key = e.before then some (Function.update held e.key e.after) else none

def run (held : Held κ σ) (effects : List (Effect κ σ)) : Option (Held κ σ) :=
  effects.foldlM apply held

variable {held held' : Held κ σ} {e : Effect κ σ} {l l₁ l₂ : List (Effect κ σ)}

theorem apply_eq_some_iff :
    held.apply e = some held' ↔ held e.key = e.before ∧ Function.update held e.key e.after = held' := by
  simp [apply]

@[simp] theorem run_nil : held.run [] = some held :=
  rfl

theorem run_cons : held.run (e :: l) = (held.apply e).bind fun held => held.run l := by
  rw [run, List.foldlM_cons]
  rfl

theorem run_append : held.run (l₁ ++ l₂) = (held.run l₁).bind fun held => held.run l₂ := by
  rw [run, List.foldlM_append]
  rfl

-- The one who hands out resources never hands out one that is still held.
def Fresh : Held κ σ → List (Effect κ σ) → Prop
  | _, []        => True
  | held, e :: l => (e.before = none → held e.key = none) ∧ ∀ held' ∈ held.apply e, held'.Fresh l

instance decidableFresh : (held : Held κ σ) → (l : List (Effect κ σ)) → Decidable (held.Fresh l)
  | _, []        => isTrue trivial
  | held, e :: l =>
    have : DecidablePred fun held' : Held κ σ => held'.Fresh l := fun held' => decidableFresh held' l
    inferInstanceAs (Decidable (_ ∧ ∀ held' ∈ held.apply e, held'.Fresh l))

-- Every resource that is held belongs to exactly one of the owners.
structure Shared (held : Held κ σ) (owners : List (Held κ σ)) : Prop where
  held_iff : ∀ k s, held k = some s ↔ ∃ own ∈ owners, own k = some s
  disjoint : ∀ {i j : ℕ} {a b : Held κ σ} {k : κ}, owners[i]? = some a → owners[j]? = some b →
    a k ≠ none → b k ≠ none → i = j

namespace Shared

variable {owners : List (Held κ σ)} {own own' : Held κ σ} {i : ℕ}

omit [DecidableEq κ] [DecidableEq σ] in
theorem nothing (h : ∀ own ∈ owners, own = .nothing) : Shared (.nothing : Held κ σ) owners where
  held_iff k s := by
    constructor
    case mp  => rintro ⟨⟩
    case mpr =>
      rintro ⟨own, ho, hk⟩
      rw [h own ho] at hk
      cases hk
  disjoint hi _ ha _ := by
    rw [h _ (List.mem_of_getElem? hi)] at ha
    exact absurd rfl ha

omit [DecidableEq κ] [DecidableEq σ] in
theorem held_of_owner (h : Shared held owners) {k : κ} {s : σ} (hi : owners[i]? = some own) (hk : own k = some s) :
    held k = some s :=
  (h.held_iff k s).mpr ⟨own, List.mem_of_getElem? hi, hk⟩

-- A step that an owner may take with what it has on its own, it may take in the presence of the others,
-- who keep what they have.
theorem step (h : Shared held owners) (hi : owners[i]? = some own) (ha : own.apply e = some own')
    (hf : e.before = none → held e.key = none) :
    ∃ held', held.apply e = some held' ∧ Shared held' (owners.set i own') := by
  obtain ⟨hb, rfl⟩ := apply_eq_some_iff.mp ha
  have hlt : i < owners.length := (List.getElem?_eq_some_iff.mp hi).1
  have hh : held e.key = e.before := by
    cases he : e.before with
    | none   => exact hf he
    | some s => exact h.held_of_owner hi (hb.trans he)
  -- Nobody else has the resource, be it new or the owner's.
  have hothers : ∀ {j b}, j ≠ i → owners[j]? = some b → b e.key = none := by
    intro j b hj hob
    by_contra hne
    have ⟨s, hs⟩ := Option.ne_none_iff_exists'.mp hne
    have ho : own e.key ≠ none := by rw [hb, ← hh, h.held_of_owner hob hs]; simp
    exact hj (h.disjoint hob hi hne ho)
  refine ⟨_, apply_eq_some_iff.mpr ⟨hh, rfl⟩, ?held_iff, ?disjoint⟩
  case held_iff =>
    intro k s
    by_cases hk : k = e.key
    case pos =>
      subst hk
      rw [Function.update_self]
      constructor
      case mp =>
        intro hs
        exact ⟨_, List.mem_of_getElem? (List.getElem?_set_self hlt), by rw [Function.update_self, hs]⟩
      case mpr =>
        rintro ⟨b, hm, hs⟩
        have ⟨j, hj⟩ := List.getElem?_of_mem hm
        by_cases hji : i = j
        case pos =>
          rw [hji, List.getElem?_set_self (hji ▸ hlt)] at hj
          cases hj
          rwa [Function.update_self] at hs
        case neg =>
          rw [List.getElem?_set_ne hji] at hj
          rw [hothers (Ne.symm hji) hj] at hs
          cases hs
    case neg =>
      rw [Function.update_of_ne hk, h.held_iff]
      constructor
      case mp =>
        rintro ⟨b, hm, hs⟩
        have ⟨j, hj⟩ := List.getElem?_of_mem hm
        by_cases hji : i = j
        case pos =>
          subst hji
          cases hi.symm.trans hj
          exact ⟨_, List.mem_of_getElem? (List.getElem?_set_self hlt), by rwa [Function.update_of_ne hk]⟩
        case neg => exact ⟨b, List.mem_of_getElem? ((List.getElem?_set_ne hji).trans hj), hs⟩
      case mpr =>
        rintro ⟨b, hm, hs⟩
        rcases List.mem_or_eq_of_mem_set hm with hm | rfl
        · exact ⟨b, hm, hs⟩
        · exact ⟨own, List.mem_of_getElem? hi, by rwa [Function.update_of_ne hk] at hs⟩
  case disjoint =>
    -- What an owner has after the step, it has had before or it is the one that has taken the step.
    have hbefore : ∀ {j b k}, (owners.set i (Function.update own e.key e.after))[j]? = some b → b k ≠ none →
        (j = i ∧ k = e.key) ∨ ∃ b', owners[j]? = some b' ∧ b' k ≠ none := by
      intro j b k hj hne
      by_cases hji : i = j
      case pos =>
        subst hji
        rw [List.getElem?_set_self hlt] at hj
        cases hj
        by_cases hk : k = e.key
        case pos => exact .inl ⟨rfl, hk⟩
        case neg => exact .inr ⟨own, hi, by rwa [Function.update_of_ne hk] at hne⟩
      case neg => exact .inr ⟨b, (List.getElem?_set_ne hji).symm.trans hj, hne⟩
    intro j j' a b k hj hj' hna hnb
    rcases hbefore hj hna with ⟨rfl, rfl⟩ | ⟨a', ha', hna'⟩
    · rcases hbefore hj' hnb with ⟨rfl, _⟩ | ⟨b', hb', hnb'⟩
      · rfl
      · by_contra hne
        exact hnb' (hothers (Ne.symm hne) hb')
    · rcases hbefore hj' hnb with ⟨rfl, rfl⟩ | ⟨b', hb', hnb'⟩
      · by_contra hne
        exact hna' (hothers hne ha')
      · exact h.disjoint ha' hb' hna' hnb'

-- Owners each of whom does nothing wrong on its own do nothing wrong together, in whatever order their
-- steps happen, and end up with what each of them would have had on its own.
theorem run {threads : List (List (Effect κ σ))} {trace : List (Effect κ σ)} {finals : List (Held κ σ)}
    (ht : Interleaving threads trace) (hs : Shared held owners) (hf : held.Fresh trace)
    (ho : owners.length = threads.length) (hn : finals.length = threads.length)
    (hr : ∀ {i : ℕ} {own final : Held κ σ} {steps : List (Effect κ σ)}, owners[i]? = some own →
      threads[i]? = some steps → finals[i]? = some final → own.run steps = some final) :
    ∃ held', held.run trace = some held' ∧ Shared held' finals := by
  induction ht generalizing held owners with
  | @done threads hd =>
    refine ⟨held, rfl, ?_⟩
    have he : owners = finals := by
      refine List.ext_getElem (ho.trans hn.symm) fun i h₁ h₂ => ?_
      have h₃ : i < threads.length := ho ▸ h₁
      have := hr (List.getElem?_eq_getElem h₁) (List.getElem?_eq_getElem h₃) (List.getElem?_eq_getElem h₂)
      rw [hd _ (List.getElem_mem h₃), run_nil, Option.some.injEq] at this
      exact this
    exact he ▸ hs
  | @step threads i e steps trace hi _ hrec =>
    have hlt : i < threads.length := (List.getElem?_eq_some_iff.mp hi).1
    have h₁ : owners[i]? = some owners[i] := List.getElem?_eq_getElem (ho ▸ hlt)
    have h₂ : finals[i]? = some finals[i] := List.getElem?_eq_getElem (hn ▸ hlt)
    have hrun := hr h₁ hi h₂
    rw [run_cons] at hrun
    have ⟨own', ha, hrun⟩ := Option.bind_eq_some_iff.mp hrun
    have ⟨held', hh, hs'⟩ := hs.step h₁ ha hf.1
    -- The thread that has taken the step has the rest of its steps left, all the others have all of theirs.
    have hrest : ∀ {j : ℕ} {own final : Held κ σ} {rest : List (Effect κ σ)}, (owners.set i own')[j]? = some own →
        (threads.set i steps)[j]? = some rest → finals[j]? = some final → own.run rest = some final := by
      intro j own final rest hj hj' hf'
      by_cases hij : i = j
      case pos =>
        subst hij
        rw [List.getElem?_set_self (ho ▸ hlt)] at hj
        rw [List.getElem?_set_self hlt] at hj'
        cases hj
        cases hj'
        cases h₂.symm.trans hf'
        exact hrun
      case neg =>
        rw [List.getElem?_set_ne hij] at hj hj'
        exact hr hj hj' hf'
    have ⟨held'', hh', hs''⟩ := hrec hs' (hf.2 held' hh) (by simpa using ho) (by simpa using hn) hrest
    exact ⟨held'', by rw [run_cons, hh, Option.bind_some, hh'], hs''⟩

end Shared
end Held

namespace Interleaving

variable {α β : Type} {threads : List (List α)} {trace : List α}

theorem prepend {i : ℕ} {steps : List α} (h : Interleaving (threads.set i steps) trace) (block : List α)
    (hi : threads[i]? = some (block ++ steps)) : Interleaving threads (block ++ trace) := by
  induction block generalizing threads with
  | nil =>
    have ⟨hlt, he⟩ := List.getElem?_eq_some_iff.mp hi
    rw [List.nil_append] at he ⊢
    rwa [← he, List.set_getElem_self] at h
  | cons a block hr =>
    have hlt : i < threads.length := (List.getElem?_eq_some_iff.mp hi).1
    exact .step hi <| hr (by rwa [List.set_set]) (List.getElem?_set_self hlt)

theorem replicate_append_flatten (n : ℕ) (threads : List (List α)) :
    Interleaving (List.replicate n [] ++ threads) threads.flatten := by
  induction threads generalizing n with
  | nil => exact .done fun steps hs => (List.mem_replicate.mp ((List.append_nil _).symm ▸ hs)).2
  | cons steps threads hi =>
    have hg : (List.replicate n [] ++ steps :: threads)[n]? = some (steps ++ []) := by simp
    refine prepend ?_ steps hg
    have hs : (List.replicate n [] ++ steps :: threads).set n [] = List.replicate (n + 1) [] ++ threads := by
      rw [List.set_append_right _ _ (by simp), List.length_replicate, Nat.sub_self, List.set_cons_zero,
        List.replicate_succ', List.append_assoc, List.singleton_append]
    rw [hs]
    exact hi (n + 1)

-- One thread after the other.
theorem flatten (threads : List (List α)) : Interleaving threads threads.flatten :=
  replicate_append_flatten 0 threads

-- Steps that consist of several smaller ones.
theorem flatMap (h : Interleaving threads trace) (f : α → List β) :
    Interleaving (threads.map (List.flatMap f)) (trace.flatMap f) := by
  induction h with
  | done hn =>
    refine .done fun steps hs => ?_
    have ⟨l, hl, he⟩ := List.mem_map.mp hs
    rw [← he, hn l hl, List.flatMap_nil]
  | @step threads i a steps trace hi _ hr =>
    rw [List.flatMap_cons]
    have hg : (threads.map (List.flatMap f))[i]? = some (f a ++ steps.flatMap f) := by
      rw [List.getElem?_map, hi, Option.map_some, List.flatMap_cons]
    rw [List.map_set] at hr
    exact hr.prepend (f a) hg

end Interleaving
end Rust
