import Latent.Source.Ewf

open Rust

namespace Latent

namespace Libewf

def effects (calls : List Call) : List (Effect Resource Phase) :=
  calls.flatMap Call.effects

@[simp] theorem effects_nil : effects [] = [] :=
  rfl

@[simp] theorem effects_cons (call : Call) (calls : List Call) :
    effects (call :: calls) = call.effects ++ effects calls :=
  List.flatMap_cons

theorem effects_append (calls₁ calls₂ : List Call) :
    effects (calls₁ ++ calls₂) = effects calls₁ ++ effects calls₂ :=
  List.flatMap_append

end Libewf

namespace EwfSource

open Libewf Logged

-- What a source holds from its opening on until it is dropped.
def held (s : EwfSource) : Held Resource Phase :=
  .only (.handle s.handle) .opened

def heldBy : Exec SourceError EwfSource → Held Resource Phase
  | .ok s => s.held
  | _     => .nothing

variable {ε : Type} {lib : Libewf} {path : String} {s : EwfSource}

-- A call that only needs the handle to be open leaves things as they are.
theorem run_use {handle : ℕ} {call : Call} (h : call.effects = [.use (.handle handle) .opened])
    (calls : List Call) :
    (Held.only (.handle handle) Phase.opened).run (effects (call :: calls)) =
      (Held.only (.handle handle) Phase.opened).run (effects calls) := by
  simp [h, Held.run_cons, Held.apply, Held.only, Effect.use, Effect.move]

theorem run_uses {handle : ℕ} {calls : List Call}
    (h : ∀ call ∈ calls, call.effects = [.use (.handle handle) .opened]) (rest : List Call) :
    (Held.only (.handle handle) Phase.opened).run (effects (calls ++ rest)) =
      (Held.only (.handle handle) Phase.opened).run (effects rest) := by
  induction calls with
  | nil => rfl
  | cons call calls hi =>
    rw [List.cons_append, run_use (h call List.mem_cons_self)]
    exact hi fun call hc => h call (List.mem_cons_of_mem _ hc)

theorem run_free (handle : ℕ) :
    (Held.only (.handle handle) Phase.allocated).run (effects [.handleFree handle]) = some .nothing := by
  simp [Call.effects, Held.run_cons, Held.apply, Held.only, Effect.release]

theorem run_closeFree (handle : ℕ) :
    (Held.only (.handle handle) Phase.opened).run (effects [.handleClose handle, .handleFree handle]) =
      some .nothing := by
  simp [Call.effects, Held.run_cons, Held.apply, Held.only, Effect.release, Effect.move]

theorem exec_hashValue (lib : Libewf) (handle : ℕ) (id : Bytes) :
    ∃ text, (hashValue lib handle id : Logged Call ε _).exec = .ok text := by
  rw [hashValue, exec_note_bind]
  split
  case h_1 => exact ⟨_, rfl⟩
  case h_2 =>
    split
    case isTrue  => exact ⟨_, rfl⟩
    case isFalse =>
      rw [exec_note_bind]
      split <;> exact ⟨_, rfl⟩

-- The two calls that ask for a hash value.
theorem mem_log_hashValue {handle : ℕ} {id : Bytes} {call : Call}
    (h : call ∈ (hashValue lib handle id : Logged Call ε _).log) :
    call = .getHashValueSize handle id ∨ ∃ size, call = .getHashValue handle id size size := by
  rw [hashValue, log_note_bind, List.mem_cons] at h
  rcases h with rfl | h
  · exact .inl rfl
  · split at h
    case h_1 => cases h
    case h_2 size _ =>
      split at h
      case isTrue  => cases h
      case isFalse =>
        rw [log_note_bind, List.mem_cons, Bytes.zeros, List.length_replicate] at h
        rcases h with rfl | h
        · exact .inr ⟨size, rfl⟩
        · split at h <;> cases h

-- What opening a source can come to, and the calls that it then consists of.
inductive Attempt (path : String) : Exec SourceError EwfSource → List Call → Prop
  | refused {detail} : Attempt path (.err (.malformed path "ewf" detail)) []
  | notListed {detail} : Attempt path (.err (.malformed path "ewf" detail)) [.glob path none]
  | notInitialized {detail names number} : Attempt path (.err (.malformed path "ewf" detail))
    [.glob path (some names), .handleInitialize none, .globFree names number]
  | notOpened {detail names number handle} : Attempt path (.err (.malformed path "ewf" detail))
    [.glob path (some names), .handleInitialize (some handle), .handleOpen handle names number OPEN_READ false,
      .globFree names number, .handleFree handle]
  | notSized {detail names number handle} : Attempt path (.err (.malformed path "ewf" detail))
    [.glob path (some names), .handleInitialize (some handle), .handleOpen handle names number OPEN_READ true,
      .globFree names number, .getMediaSize handle, .handleClose handle, .handleFree handle]
  | opened {s names number calls} : s.identity = { path, format := .ewf } →
    (∀ call ∈ calls, (∃ id, call = .getHashValueSize s.handle id) ∨
      ∃ id size, call = .getHashValue s.handle id size size) →
    Attempt path (.ok s) (.glob path (some names) :: .handleInitialize (some s.handle) ::
      .handleOpen s.handle names number OPEN_READ true :: .globFree names number :: .getMediaSize s.handle :: calls)

theorem open_attempt (lib : Libewf) (path : String) :
    Attempt path (EwfSource.open lib path).exec (EwfSource.open lib path).log := by
  rw [EwfSource.open]
  split
  case isTrue  => exact .refused
  case isFalse =>
    simp only [log_note_bind, exec_note_bind]
    cases lib.glob path with
    | none => exact .notListed
    | some listed =>
      simp only [log_note_bind, exec_note_bind]
      cases lib.handleInitialize with
      | none => exact .notInitialized
      | some handle =>
        simp only [log_note_bind, exec_note_bind]
        cases lib.handleOpen handle listed.1 listed.2 with
        | false => exact .notOpened
        | true  =>
          simp only [log_note_bind, exec_note_bind, Bool.true_eq_false, if_false]
          cases lib.getMediaSize handle with
          | none => exact .notSized
          | some mediaSize =>
            have ⟨md5, h₁⟩ := exec_hashValue (ε := SourceError) lib handle MD5
            have ⟨sha1, h₂⟩ := exec_hashValue (ε := SourceError) lib handle SHA1
            simp only [log_bind_of_ok h₁, log_bind_of_ok h₂, exec_bind, h₁, h₂, Exec.ok_bind, exec_pure, log_pure,
              List.append_nil]
            refine .opened rfl fun call h => ?_
            rcases List.mem_append.mp h with h | h
            · exact (mem_log_hashValue h).imp (⟨_, ·⟩) (⟨_, ·⟩)
            · exact (mem_log_hashValue h).imp (⟨_, ·⟩) (⟨_, ·⟩)

theorem run_withoutHandle (names : ℕ) (number : ℤ) :
    Held.nothing.run (effects [.glob path (some names), .handleInitialize none, .globFree names number]) =
      some .nothing := by
  simp [Call.effects, Held.run_cons, Held.apply, Effect.acquire, Effect.release, Held.nothing]

-- Once the names are given back, there is nothing but the handle.
theorem run_newHandle (names handle : ℕ) (number : ℤ) (opened : Bool) (rest : List Call) :
    Held.nothing.run (effects (.glob path (some names) :: .handleInitialize (some handle) ::
      .handleOpen handle names number OPEN_READ opened :: .globFree names number :: rest)) =
        (Held.only (.handle handle) (if opened then .opened else .allocated)).run (effects rest) := by
  have h : Held.nothing.run (effects [.glob path (some names), .handleInitialize (some handle),
      .handleOpen handle names number OPEN_READ opened, .globFree names number]) =
        some (.only (.handle handle) (if opened then .opened else .allocated)) := by
    simp only [effects_cons, effects_nil, Call.effects, Option.toList_some, List.map_cons, List.map_nil,
      List.cons_append, List.nil_append, Held.run_cons, Held.apply, Effect.acquire, Effect.use, Effect.move,
      Effect.release]
    simp only [Held.nothing_apply, ite_true, Option.bind_some, ne_eq, reduceCtorEq, not_false_eq_true,
      Function.update_of_ne, Function.update_self, Held.run_nil, Option.some.injEq, Held.only]
    funext key
    cases key with
    | names address  => by_cases ha : address = names <;> simp [ha]
    | handle address => by_cases ha : address = handle <;> simp [ha]
  have hs := effects_append [.glob path (some names), .handleInitialize (some handle),
    .handleOpen handle names number OPEN_READ opened, .globFree names number] rest
  simp only [List.cons_append, List.nil_append] at hs
  rw [hs, Held.run_append, h, Option.bind_some]

-- Whatever the library answers, opening a source does nothing that is not allowed, and it leaves the
-- source's handle behind if there is a source, and nothing at all if there is none.
theorem run_attempt {x : Exec SourceError EwfSource} {calls : List Call} (h : Attempt path x calls) :
    Held.nothing.run (effects calls) = some (heldBy x) := by
  cases h with
  | refused                                => rfl
  | notListed                              => rfl
  | @notInitialized _ names number         => exact run_withoutHandle names number
  | @notOpened _ names number handle       => rw [run_newHandle]; exact run_free handle
  | @notSized _ names number handle        => rw [run_newHandle, if_pos rfl, run_use rfl]; exact run_closeFree handle
  | @opened s names number calls _ queries =>
    have hq : ∀ call ∈ calls, call.effects = [.use (.handle s.handle) .opened] := by
      intro call hc
      rcases queries call hc with ⟨_, rfl⟩ | ⟨_, _, rfl⟩ <;> rfl
    have hr := run_uses hq []
    rw [List.append_nil] at hr
    rw [run_newHandle, if_pos rfl, run_use rfl, hr]
    rfl

theorem fitsBuffer_attempt {x : Exec SourceError EwfSource} {calls : List Call} (h : Attempt path x calls) :
    ∀ call ∈ calls, call.FitsBuffer := by
  cases h with
  | opened _ queries =>
    simp only [List.forall_mem_cons, Call.FitsBuffer, true_and]
    intro call hc
    rcases queries call hc with ⟨_, rfl⟩ | ⟨_, size, rfl⟩
    · trivial
    · exact Nat.le_refl size
  | _ => simp [Call.FitsBuffer]

theorem readOnly_attempt {x : Exec SourceError EwfSource} {calls : List Call} (h : Attempt path x calls) :
    ∀ call ∈ calls, ReadOnly path call := by
  cases h with
  | opened _ queries =>
    simp only [List.forall_mem_cons, ReadOnly, true_and]
    intro call hc
    rcases queries call hc with ⟨_, rfl⟩ | ⟨_, _, rfl⟩ <;> trivial
  | _ => simp [ReadOnly]

-- A source that is open goes by the path it was opened with, and nothing else can go wrong with that.
theorem exec_attempt {x : Exec SourceError EwfSource} {calls : List Call} (h : Attempt path x calls) :
    (∃ detail, x = .err (.malformed path "ewf" detail)) ∨
      ∃ s : EwfSource, x = .ok s ∧ s.identity = { path, format := .ewf } := by
  cases h with
  | opened hi _ => exact .inr ⟨_, rfl, hi⟩
  | _ => exact .inl ⟨_, rfl⟩

theorem effects_of_mem_readAt {offset len : ℕ} {call : Call} (h : call ∈ (s.readAt lib offset len).log) :
    call.effects = [.use (.handle s.handle) .opened] ∧ call.FitsBuffer := by
  rw [readAt] at h
  split at h
  case isTrue  => cases h
  case isFalse =>
    dsimp only at h
    split at h
    case isTrue  => cases h
    case isFalse =>
      rw [log_note_bind, List.mem_cons] at h
      rcases h with rfl | h
      · exact ⟨rfl, Nat.min_le_left ..⟩
      · split at h <;> cases h

-- A read, with the answers that the library has for it.
structure Reading where
  lib    : Libewf
  offset : ℕ
  len    : ℕ

-- The life of a source: how the library answers when it is opened, the reads, and if the source is
-- dropped in the end.
structure Life where
  lib     : Libewf
  path    : String
  reads   : List Reading
  dropped : Bool

namespace Life

def calls (l : Life) : List Call :=
  let opened := EwfSource.open l.lib l.path
  opened.log ++ match opened.exec with
    | .ok s => (l.reads.flatMap fun r => (s.readAt r.lib r.offset r.len).log) ++ if l.dropped then s.drop else []
    | _     => []

-- The source that is there in the end.
def Leaves (l : Life) (s : EwfSource) : Prop :=
  (EwfSource.open l.lib l.path).exec = .ok s ∧ l.dropped = false

def held (l : Life) : Held Resource Phase :=
  if l.dropped then .nothing else heldBy (EwfSource.open l.lib l.path).exec

variable {l : Life} {lives : List Life} {trace : List Call}

theorem held_eq_some_iff {resource : Resource} {phase : Phase} :
    l.held resource = some phase ↔ ∃ s, l.Leaves s ∧ resource = .handle s.handle ∧ phase = .opened := by
  simp only [held, Leaves]
  cases l.dropped with
  | true  => simp
  | false =>
    cases (EwfSource.open l.lib l.path).exec with
    | ok s  => simp [heldBy, EwfSource.held, Held.only_eq_some_iff]
    | err e => simp [heldBy]
    | panic => simp [heldBy]

theorem effects_of_mem_reads {call : Call}
    (h : call ∈ l.reads.flatMap fun r => (s.readAt r.lib r.offset r.len).log) :
    call.effects = [.use (.handle s.handle) .opened] ∧ call.FitsBuffer := by
  have ⟨_, _, hc⟩ := List.mem_flatMap.mp h
  exact effects_of_mem_readAt hc

theorem run_calls (l : Life) : Held.nothing.run (effects l.calls) = some l.held := by
  rw [calls, effects_append, Held.run_append, run_attempt (open_attempt l.lib l.path), Option.bind_some, held]
  cases (EwfSource.open l.lib l.path).exec with
  | err e => simp [heldBy]
  | panic => simp [heldBy]
  | ok s  =>
    dsimp only [heldBy, EwfSource.held]
    rw [run_uses fun _ h => (effects_of_mem_reads h).1]
    cases l.dropped with
    | false => rfl
    | true  => exact run_closeFree s.handle

theorem fitsBuffer_calls {call : Call} (h : call ∈ l.calls) : call.FitsBuffer := by
  rw [calls, List.mem_append] at h
  rcases h with h | h
  · exact fitsBuffer_attempt (open_attempt l.lib l.path) call h
  · split at h
    case h_1 s _ =>
      rcases List.mem_append.mp h with h | h
      · exact (effects_of_mem_reads h).2
      · split at h
        case isTrue =>
          simp only [drop, List.mem_cons, List.not_mem_nil, or_false] at h
          rcases h with rfl | rfl <;> trivial
        case isFalse => cases h
    case h_2 => cases h

-- Any number of sources, opened, read and dropped in any order, with any answers of a library that does
-- not hand out what is still in use: nothing is used after it is given back or before it is opened,
-- nothing is given back twice, no buffer overflows, and what is left are the handles of the sources
-- that are left, each with one of its own.
theorem safe (ht : Interleaving (lives.map calls) trace) (hf : Held.nothing.Fresh (effects trace)) :
    (∀ call ∈ trace, call.FitsBuffer) ∧
    (∃ held, Held.nothing.run (effects trace) = some held ∧ ∀ resource phase, held resource = some phase ↔
      ∃ l ∈ lives, ∃ s, l.Leaves s ∧ resource = .handle s.handle ∧ phase = .opened) ∧
    ∀ {i j : ℕ} {l l' : Life} {s s' : EwfSource}, lives[i]? = some l → lives[j]? = some l' → l.Leaves s →
      l'.Leaves s' → s.handle = s'.handle → i = j := by
  have hs : Held.Shared (.nothing : Held Resource Phase) (lives.map fun _ => .nothing) :=
    .nothing fun own ho => by
      have ⟨_, _, he⟩ := List.mem_map.mp ho
      exact he.symm
  have hr : ∀ {i : ℕ} {own final : Held Resource Phase} {steps : List (Effect Resource Phase)},
      (lives.map fun _ => Held.nothing)[i]? = some own → ((lives.map calls).map effects)[i]? = some steps →
      (lives.map held)[i]? = some final → own.run steps = some final := by
    intro i own final steps ho hi hn
    simp only [List.getElem?_map, Option.map_map, Option.map_eq_some_iff, Function.comp_apply] at ho hi hn
    obtain ⟨l, hl, rfl⟩ := ho
    obtain ⟨_, hl', rfl⟩ := hi
    cases hl.symm.trans hl'
    obtain ⟨_, hl', rfl⟩ := hn
    cases hl.symm.trans hl'
    exact run_calls l
  have ⟨held, hrun, hshared⟩ := hs.run (ht.flatMap Call.effects) hf (by simp) (by simp) hr
  refine ⟨fun call hc => ?_, ⟨held, hrun, fun resource phase => ?_⟩, ?_⟩
  · have ⟨_, hm, hc⟩ := List.mem_flatten.mp (ht.perm.mem_iff.mp hc)
    have ⟨l, _, he⟩ := List.mem_map.mp hm
    exact fitsBuffer_calls (he ▸ hc)
  · simp [hshared.held_iff, held_eq_some_iff]
  · intro i j l l' s s' hi hj hl hl' hh
    have h₁ : l.held (.handle s.handle) = some .opened := held_eq_some_iff.mpr ⟨s, hl, rfl, rfl⟩
    have h₂ : l'.held (.handle s.handle) = some .opened := held_eq_some_iff.mpr ⟨s', hl', by rw [hh], rfl⟩
    exact hshared.disjoint (by rw [List.getElem?_map, hi, Option.map_some])
      (by rw [List.getElem?_map, hj, Option.map_some]) (by rw [h₁]; simp) (by rw [h₂]; simp)

-- A library without hash values that hands out the same two addresses each time.
def reusing (opens : Bool) : Libewf where
  glob _               := some (1, 1)
  handleInitialize     := some 2
  handleOpen _ _ _     := opens
  getMediaSize _       := some 4
  getHashValueSize _ _ := none
  getHashValue _ _ _   := none
  readRandom _ n _     := some (Bytes.zeros n)

-- The first source cannot be opened, the second one is read once and gets the address that the first
-- one had.
theorem safe_reusing :
    let failed : Life := { lib := reusing false, path := "a", reads := [], dropped := true }
    let left : Life := { lib := reusing true, path := "b", reads := [⟨reusing true, 0, 8⟩], dropped := false }
    ∃ held, Held.nothing.run (effects (failed.calls ++ left.calls)) = some held ∧
      held (.handle 2) = some .opened := by
  intro failed left
  have ht : Interleaving ([failed, left].map calls) (failed.calls ++ left.calls) := by
    simpa using Interleaving.flatten ([failed, left].map calls)
  have hf : Held.nothing.Fresh (effects (failed.calls ++ left.calls)) := by decide +kernel
  have ⟨_, ⟨held, hr, hh⟩, _⟩ := safe ht hf
  let s : EwfSource := { handle := 2, identity := ⟨"b", .ewf⟩, mediaSize := 4, md5 := none, sha1 := none }
  have hs : left.Leaves s := ⟨by decide +kernel, rfl⟩
  exact ⟨held, hr, (hh _ _).mpr ⟨left, by simp, s, hs, rfl, rfl⟩⟩

end Life

end EwfSource
end Latent
