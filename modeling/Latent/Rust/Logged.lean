import Latent.Rust.Exec

namespace Rust

-- A run beside the log of what it has done on the way. Where the run fails, the log ends there.
structure Logged (ω ε α : Type) where
  exec : Exec ε α
  log  : List ω

namespace Logged

variable {ω ε α β : Type} {w : ω}

protected def bind (x : Logged ω ε α) (f : α → Logged ω ε β) : Logged ω ε β where
  exec := x.exec >>= fun a => (f a).exec
  log  := x.log ++ match x.exec with
    | .ok a  => (f a).log
    | .err _ => []
    | .panic => []

instance : Monad (Logged ω ε) where
  pure a := ⟨.ok a, []⟩
  bind   := Logged.bind

-- A part of a run that adds nothing to the log, and one that adds an entry.
def quiet (x : Exec ε α) : Logged ω ε α :=
  ⟨x, []⟩

def noting (w : ω) (x : Exec ε α) : Logged ω ε α :=
  ⟨x, [w]⟩

def note (w : ω) : Logged ω ε Unit :=
  noting w (.ok ())

-- A run that is part of another one, with entries of its own.
def mapLog {ω' : Type} (g : ω' → ω) (x : Logged ω' ε α) : Logged ω ε α :=
  ⟨x.exec, x.log.map g⟩

section

variable {x : Logged ω ε α} {f : α → Logged ω ε β}

@[simp] theorem exec_pure (a : α) : (pure a : Logged ω ε α).exec = .ok a :=
  rfl

@[simp] theorem exec_quiet (x : Exec ε α) : (quiet x : Logged ω ε α).exec = x :=
  rfl

@[simp] theorem exec_noting (w : ω) (x : Exec ε α) : (noting w x).exec = x :=
  rfl

@[simp] theorem exec_bind : (x >>= f).exec = x.exec >>= fun a => (f a).exec :=
  rfl

@[simp] theorem not_mem_log_pure (a : α) : w ∉ (pure a : Logged ω ε α).log :=
  List.not_mem_nil

@[simp] theorem not_mem_log_quiet (x : Exec ε α) : w ∉ (quiet x : Logged ω ε α).log :=
  List.not_mem_nil

@[simp] theorem mem_log_noting {w' : ω} {x : Exec ε α} : w ∈ (noting w' x).log ↔ w = w' :=
  List.mem_singleton

-- What a sequence has done is what its first part did and, where that gave a result, what its
-- second part did.
theorem mem_log_bind : w ∈ (x >>= f).log ↔ w ∈ x.log ∨ ∃ a, x.exec = .ok a ∧ w ∈ (f a).log := by
  change w ∈ (x.bind f).log ↔ _
  rw [Logged.bind, List.mem_append]
  cases x.exec <;> simp

theorem mem_log_quiet_bind {x : Exec ε α} {f : α → Logged ω ε β} :
    w ∈ (quiet x >>= f).log ↔ ∃ a, x = .ok a ∧ w ∈ (f a).log := by
  simp [mem_log_bind]

theorem mem_log_ok_bind {x : Exec ε α} {f : α → Logged ω ε β} {a : α} (h : x = .ok a) :
    w ∈ (quiet x >>= f).log ↔ w ∈ (f a).log := by
  simp [mem_log_quiet_bind, h]

theorem mem_log_noting_bind {w' : ω} {x : Exec ε α} {f : α → Logged ω ε β} :
    w ∈ (noting w' x >>= f).log ↔ w = w' ∨ ∃ a, x = .ok a ∧ w ∈ (f a).log := by
  simp [mem_log_bind]

theorem log_bind : (x >>= f).log = x.log ++ match x.exec with
    | .ok a  => (f a).log
    | .err _ => []
    | .panic => [] :=
  rfl

theorem log_bind_of_ok {a : α} (h : x.exec = .ok a) : (x >>= f).log = x.log ++ (f a).log := by
  rw [log_bind, h]

@[simp] theorem log_pure (a : α) : (pure a : Logged ω ε α).log = [] :=
  rfl

@[simp] theorem log_quiet (x : Exec ε α) : (quiet x : Logged ω ε α).log = [] :=
  rfl

@[simp] theorem exec_note (w : ω) : (note w : Logged ω ε Unit).exec = .ok () :=
  rfl

@[simp] theorem log_note (w : ω) : (note w : Logged ω ε Unit).log = [w] :=
  rfl

@[simp] theorem log_note_bind {f : Unit → Logged ω ε β} : (note w >>= f).log = w :: (f ()).log :=
  rfl

@[simp] theorem exec_note_bind {f : Unit → Logged ω ε β} : (note w >>= f).exec = (f ()).exec :=
  rfl

@[simp] theorem exec_mapLog {ω' : Type} (g : ω' → ω) (x : Logged ω' ε α) : (mapLog g x).exec = x.exec :=
  rfl

theorem mem_log_mapLog {ω' : Type} {g : ω' → ω} {x : Logged ω' ε α} :
    w ∈ (mapLog g x).log ↔ ∃ w' ∈ x.log, g w' = w :=
  List.mem_map

end

-- All that a run does has some property.
def Logs (x : Logged ω ε α) (P : ω → Prop) : Prop :=
  ∀ w ∈ x.log, P w

namespace Logs

variable {P : ω → Prop} {x : Logged ω ε α}

theorem pure (a : α) : (Pure.pure a : Logged ω ε α).Logs P := by
  intro w h
  cases h

theorem quiet (x : Exec ε α) : (Logged.quiet x : Logged ω ε α).Logs P := by
  intro w h
  cases h

theorem noting {x : Exec ε α} (h : P w) : (Logged.noting w x).Logs P := by
  intro w' hw
  rw [mem_log_noting.mp hw]
  exact h

theorem note (h : P w) : (Logged.note w : Logged ω ε Unit).Logs P :=
  noting h

theorem bind {f : α → Logged ω ε β} (h : x.Logs P) (hf : ∀ a, x.exec = .ok a → (f a).Logs P) :
    (x >>= f).Logs P := by
  intro w hw
  rcases mem_log_bind.mp hw with hw | ⟨a, ha, hw⟩
  · exact h w hw
  · exact hf a ha w hw

theorem mapLog {ω' : Type} {g : ω' → ω} {x : Logged ω' ε α} (h : x.Logs fun w => P (g w)) :
    (Logged.mapLog g x).Logs P := by
  intro w hw
  obtain ⟨w', hw', rfl⟩ := mem_log_mapLog.mp hw
  exact h w' hw'

end Logs

end Logged
end Rust
