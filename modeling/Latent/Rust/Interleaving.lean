import Mathlib.Data.List.Forall2
import Mathlib.Tactic.Common

namespace Rust

variable {α β : Type}

-- The orders in which the atomic steps of some threads can happen, each thread's own in their order.
inductive Interleaving : List (List α) → List α → Prop
  | done {threads : List (List α)} : (∀ steps ∈ threads, steps = []) → Interleaving threads []
  | step {threads : List (List α)} {i : ℕ} {a : α} {steps trace : List α} :
    threads[i]? = some (a :: steps) → Interleaving (threads.set i steps) trace → Interleaving threads (a :: trace)

namespace Interleaving

variable {threads : List (List α)} {trace : List α}

theorem perm (h : Interleaving threads trace) : trace.Perm threads.flatten := by
  induction h with
  | done hn => rw [List.flatten_eq_nil_iff.mpr hn]
  | @step threads i a steps trace hi _ hp =>
    have hlt : i < threads.length := (List.getElem?_eq_some_iff.mp hi).1
    have he : threads = threads.take i ++ (a :: steps) :: threads.drop (i + 1) := by
      rw [← (List.getElem?_eq_some_iff.mp hi).2, List.getElem_cons_drop, List.take_append_drop]
    have hs : (threads.set i steps).flatten =
        (threads.take i).flatten ++ (steps ++ (threads.drop (i + 1)).flatten) := by
      rw [List.set_eq_take_append_cons_drop, if_pos hlt, List.flatten_append, List.flatten_cons]
    rw [hs] at hp
    rw [he, List.flatten_append, List.flatten_cons, List.cons_append]
    exact (hp.cons a).trans List.perm_middle.symm

-- One more step of a thread keeps what the threads have done so far among what they do in all.
theorem forall₂_set_cons {sofar : List (List α)} {i : ℕ} {a : α} {steps : List α}
    (hi : threads[i]? = some (a :: steps)) (h : List.Forall₂ (· <+: ·) sofar (threads.set i steps)) :
    ∃ hlt : i < sofar.length, List.Forall₂ (· <+: ·) (sofar.set i (a :: sofar[i])) threads := by
  have ⟨hlt, hg⟩ := List.getElem?_eq_some_iff.mp hi
  have hlen : sofar.length = threads.length := by simpa using h.length_eq
  refine ⟨hlen ▸ hlt, ?_⟩
  rw [List.forall₂_iff_get] at h ⊢
  refine ⟨by simpa using hlen, fun j h₁ h₂ => ?_⟩
  have hj : sofar[j] <+: (threads.set i steps)[j] := h.2 j (by simpa using h₁) (by simpa using h₂)
  simp only [List.get_eq_getElem, List.getElem_set] at hj ⊢
  split at hj
  case isTrue he =>
    subst he
    rw [if_pos rfl, hg]
    exact List.cons_prefix_cons.mpr ⟨rfl, hj⟩
  case isFalse hne =>
    rw [if_neg hne]
    exact hj

-- What has happened at some point is in itself an interleaving of what each thread has done so far.
theorem of_prefix (h : Interleaving threads trace) {past : List α} (hp : past <+: trace) :
    ∃ sofar, List.Forall₂ (· <+: ·) sofar threads ∧ Interleaving sofar past := by
  induction h generalizing past with
  | @done threads hn =>
    rw [List.prefix_nil.mp hp]
    exact ⟨threads, List.forall₂_same.mpr fun _ _ => List.prefix_rfl, .done hn⟩
  | @step threads i a steps trace hi _ hr =>
    cases past with
    | nil =>
      refine ⟨threads.map fun _ => [], ?_, .done fun steps hs => ?_⟩
      · exact List.forall₂_map_left_iff.mpr (List.forall₂_same.mpr fun _ _ => List.nil_prefix)
      · have ⟨_, _, he⟩ := List.mem_map.mp hs
        exact he.symm
    | cons b past =>
      have ⟨hb, hp⟩ := List.cons_prefix_cons.mp hp
      have ⟨sofar, hd, ht⟩ := hr hp
      have ⟨hlt, hc⟩ := forall₂_set_cons hi hd
      subst hb
      have hg : (sofar.set i (b :: sofar[i]))[i]? = some (b :: sofar[i]) := by simp [hlt]
      exact ⟨sofar.set i (b :: sofar[i]), hc, .step hg (by simpa using ht)⟩

theorem filter (h : Interleaving threads trace) (p : α → Bool) :
    Interleaving (threads.map (List.filter p)) (trace.filter p) := by
  induction h with
  | done hn =>
    refine .done fun steps hs => ?_
    have ⟨l, hl, he⟩ := List.mem_map.mp hs
    rw [← he, hn l hl, List.filter_nil]
  | @step threads i a steps trace hi _ hr =>
    rw [List.map_set] at hr
    have hg : (threads.map (List.filter p))[i]? = some ((a :: steps).filter p) := by
      rw [List.getElem?_map, hi, Option.map_some]
    by_cases ha : p a
    case pos =>
      rw [List.filter_cons_of_pos ha] at hg ⊢
      exact .step hg hr
    case neg =>
      rw [List.filter_cons_of_neg ha] at hg ⊢
      have hset : (threads.map (List.filter p)).set i (steps.filter p) = threads.map (List.filter p) := by
        have ⟨hlt, he⟩ := List.getElem?_eq_some_iff.mp hg
        rw [← he, List.set_getElem_self]
      rwa [hset] at hr

theorem map (h : Interleaving threads trace) (f : α → β) :
    Interleaving (threads.map (List.map f)) (trace.map f) := by
  induction h with
  | done hn =>
    refine .done fun steps hs => ?_
    have ⟨l, hl, he⟩ := List.mem_map.mp hs
    rw [← he, hn l hl, List.map_nil]
  | @step threads i a steps trace hi _ hr =>
    rw [List.map_set] at hr
    have hg : (threads.map (List.map f))[i]? = some (f a :: steps.map f) := by
      rw [List.getElem?_map, hi, Option.map_some, List.map_cons]
    exact .step hg hr

-- Each thread's steps are among what happens, in its own order.
theorem sublist (h : Interleaving threads trace) {i : ℕ} {steps : List α} (hi : threads[i]? = some steps) :
    steps.Sublist trace := by
  induction h generalizing i steps with
  | done hn => rw [hn steps (List.mem_of_getElem? hi)]
  | @step threads j a rest trace hj _ hr =>
    by_cases he : j = i
    case pos =>
      subst he
      cases hj.symm.trans hi
      exact (hr (List.getElem?_set_self (List.getElem?_eq_some_iff.mp hi).1)).cons_cons a
    case neg => exact (hr (by rwa [List.getElem?_set_ne he])).cons a

-- With nothing to do for the others, a thread's steps happen in its own order.
theorem eq_of_alone {steps : List α} (h : Interleaving (steps :: threads) trace)
    (hn : ∀ l ∈ threads, l = []) : trace = steps := by
  generalize he : steps :: threads = all at h
  induction h generalizing steps with
  | done ha =>
    subst he
    exact (ha steps List.mem_cons_self).symm
  | @step _ i a rest trace hi _ hr =>
    subst he
    cases i with
    | zero =>
      rw [List.getElem?_cons_zero, Option.some.injEq] at hi
      rw [hi, hr (by rw [List.set_cons_zero])]
    | succ i =>
      rw [List.getElem?_cons_succ] at hi
      cases hn _ (List.mem_of_getElem? hi)

end Interleaving
end Rust
