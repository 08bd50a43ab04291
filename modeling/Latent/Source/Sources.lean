import Latent.Source.Enumeration
import Latent.Source.Opened

open Rust

namespace Latent

variable {Name : Type}

-- The iterator over the sources of a collection, with the files that are left and all calls that have
-- been made so far.
structure Sources (Name : Type) where
  rest  : List (List Name)
  calls : List Syscall

-- What one file of a collection has been opened as.
structure OpenedAs [OverflowChecks] (path : String) (result : Exec SourceError Image) : Prop where
  failsWith : result.FailsWith fun e => e = .notReadOnly path ∨ e.Reading path
  identity  : ∀ image, result = .ok image → image.toSource.identity.path = path

def Collection.sources (c : Collection Name) : Sources Name where
  rest  := c.files
  calls := []

namespace Sources

section

variable [OverflowChecks] (os : Os Name) (lib : Option Libewf) (host : List Syscall → Host)

-- What the system answers may depend on everything that it has been asked before.
def next (s : Sources Name) : Option (Exec SourceError Image × Sources Name) :=
  match s.rest with
  | []           => none
  | path :: rest =>
    let run := Latent.open (host s.calls) lib (os.display path)
    some (run.exec, { rest, calls := s.calls ++ run.log })

-- The results of asking for the next source `n` times, as far as there are any.
def pull : ℕ → Sources Name → List (Exec SourceError Image) × Sources Name
  | 0, s     => ([], s)
  | n + 1, s =>
    match s.next os lib host with
    | none             => ([], s)
    | some (result, s) =>
      let (results, s) := pull n s
      (result :: results, s)

end

-- How far an iteration over some files has come.
structure Reached [OverflowChecks] (os : Os Name) (host : List Syscall → Host) (files done : List (List Name))
    (results : List (Exec SourceError Image)) (s : Sources Name) : Prop where
  files_eq : files = done ++ s.rest
  results  : List.Forall₂ (fun path result => OpenedAs (os.display path) result) done results
  calls    : ∀ call ∈ s.calls, ∃ path ∈ done, ∃ asked, asked <+: s.calls ∧
    call.ReadOnly (host asked) (os.display path)

section

variable [OverflowChecks] {os : Os Name} {lib : Option Libewf} {host : List Syscall → Host}
variable {files done : List (List Name)} {results : List (Exec SourceError Image)} {s s' : Sources Name}
variable {result : Exec SourceError Image} {n : ℕ}

theorem Reached.next (h : Reached os host files done results s) (hs : s.next os lib host = some (result, s')) :
    ∃ path, s.rest = path :: s'.rest ∧ Reached os host files (done ++ [path]) (results ++ [result]) s' := by
  rw [Sources.next] at hs
  split at hs
  case h_1 => cases hs
  case h_2 path rest hrest =>
    cases hs
    refine ⟨path, hrest, ?_, ?_, ?_⟩
    case refine_1 => rw [h.files_eq, hrest, List.append_assoc, List.singleton_append]
    case refine_2 =>
      refine List.rel_append h.results (.cons ?_ .nil)
      exact ⟨open_failsWith _ _ _, fun image ho => path_of_open ho⟩
    case refine_3 =>
      intro call hc
      rcases List.mem_append.mp hc with hc | hc
      · have ⟨path', hp, asked, ha, hr⟩ := h.calls call hc
        exact ⟨path', List.mem_append_left _ hp, asked, ha.trans (List.prefix_append ..), hr⟩
      · refine ⟨path, List.mem_append_right _ (List.mem_singleton_self _), s.calls, List.prefix_append .., ?_⟩
        exact open_logs _ _ _ call hc

theorem Reached.pull (h : Reached os host files done results s) :
    Reached os host files (done ++ s.rest.take n) (results ++ (s.pull os lib host n).1) (s.pull os lib host n).2 := by
  induction n generalizing done results s with
  | zero => simpa [Sources.pull] using h
  | succ n hi =>
    rw [Sources.pull]
    cases hs : s.next os lib host with
    | none =>
      have hrest : s.rest = [] := by
        rw [Sources.next] at hs
        split at hs
        case h_1 hrest => exact hrest
        case h_2       => cases hs
      simpa [hrest] using h
    | some next =>
      obtain ⟨result, s'⟩ := next
      have ⟨path, hrest, hr⟩ := h.next hs
      have hp := hi hr
      rw [hrest, List.take_succ_cons]
      simpa using hp

theorem Reached.exists_file (h : Reached os host files done results s) {i : ℕ} {image : Image}
    (hr : results[i]? = some (.ok image)) :
    ∃ path, done[i]? = some path ∧ image.toSource.identity.path = os.display path := by
  obtain ⟨hi, hr⟩ := List.getElem?_eq_some_iff.mp hr
  have hd : i < done.length := h.results.length_eq ▸ hi
  exact ⟨done[i], List.getElem?_eq_getElem hd, (h.results.get hd hi).identity image hr⟩

-- Where every path has a display of its own, no file is opened in two places.
theorem Reached.place_unique (h : Reached os host files done results s) (hn : files.Nodup)
    (hdisplay : os.display.Injective) {i j : ℕ} {a b : Image} (ha : results[i]? = some (.ok a))
    (hb : results[j]? = some (.ok b)) (hp : a.toSource.identity.path = b.toSource.identity.path) : i = j := by
  have ⟨path₁, h₁, hpath₁⟩ := h.exists_file ha
  have ⟨path₂, h₂, hpath₂⟩ := h.exists_file hb
  have he : path₁ = path₂ := hdisplay (hpath₁.symm.trans (hp.trans hpath₂))
  have hdone : done.Nodup := (h.files_eq ▸ hn).of_append_left
  exact (List.getElem?_inj (List.getElem?_eq_some_iff.mp h₁).1 hdone).mp (h₁.trans (he ▸ h₂.symm))

end
end Sources

namespace Collection

section

variable [LinearOrder Name] [OverflowChecks] {os : Os Name} {root : List Name} {n fuel : ℕ}

-- Going through the sources of a collection: every non-empty file of the tree has its turn once, in the
-- order of the paths, whatever the others have come to. Nothing is asked of the system but what
-- concerns the files that have had their turn, and none of it could change them.
theorem sources_reached (hu : os.UniqueNames) (hn : os.Nests n root) (hf : n ≤ fuel)
    (hd : os.isDir root = .ok true) (lib : Option Libewf) (host : List Syscall → Host) :
    ∃ c, (∀ os', os.SameTree os' → «open» os' fuel root = some (.ok c)) ∧ c.files.Pairwise (· < ·) ∧
      (∀ path, path ∈ c.files ↔ os.Below root path ∧ os.NonEmptyFile path) ∧
      ∀ k, Sources.Reached os host c.files (c.files.take k) (c.sources.pull os lib host k).1
          (c.sources.pull os lib host k).2 ∧
        (os.display.Injective → ∀ (i j : ℕ) (a b : Image), (c.sources.pull os lib host k).1[i]? = some (.ok a) →
          (c.sources.pull os lib host k).1[j]? = some (.ok b) →
          a.toSource.identity.path = b.toSource.identity.path → i = j) := by
  have hn := hn.mono hf
  have hw : (os.leaves fuel root).Pairwise (· < ·) := Os.pairwise_leaves hu
  refine ⟨_, fun os' h => (open_sameTree h).trans (open_eq hn hd), hw.filter _, ?files, fun k => ?reached⟩
  case files =>
    intro path
    simp only [extend, List.nil_append, List.mem_filter, Os.mem_leaves hn, Os.keeps_iff]
    constructor
    case mp  => exact fun h => ⟨h.1.1, h.2⟩
    case mpr => exact fun h => ⟨⟨h.1, by simp [h.2.1]⟩, h.2⟩
  case reached =>
    generalize hc : extend os { root, files := [], skipped := [] } (os.leaves fuel root) = c
    have hnodup : c.files.Nodup := hc ▸ (hw.filter _).imp ne_of_lt
    have h₀ : Sources.Reached os host c.files [] [] c.sources := ⟨rfl, .nil, fun _ h => absurd h List.not_mem_nil⟩
    have hk : Sources.Reached os host c.files (c.files.take k) (c.sources.pull os lib host k).1
        (c.sources.pull os lib host k).2 := h₀.pull
    exact ⟨hk, fun hdisplay i j a b => hk.place_unique hnodup hdisplay⟩

end

section

attribute [local instance] OverflowChecks.on

theorem uniqueNames_sealed : sealed.UniqueNames := by
  intro dir listing hr
  simp only [sealed] at hr
  split at hr
  case isTrue  => cases hr; decide
  case isFalse => cases hr

-- An empty file and a directory nobody may list have no turn.
theorem sources_reached_sealed : ∃ c, «open» sealed 2 ["case"] = some (.ok c) ∧ c.files = [["case", "b.img"]] ∧
    (c.sources.pull sealed none (fun _ => hostOf [7]) 5).1.length = 1 ∧
      ∀ call ∈ (c.sources.pull sealed none (fun _ => hostOf [7]) 5).2.calls, call.ReadOnly (hostOf [7]) "case/b.img" := by
  have ⟨c, ho, _, _, hr⟩ := sources_reached uniqueNames_sealed nests_sealed (Nat.le_refl _) rfl none
    fun _ => hostOf [7]
  have ho := ho sealed (Os.SameTree.refl _)
  have hopen : «open» sealed 2 ["case"] = some (.ok ⟨["case"], [["case", "b.img"]], [["case", "a.img"]]⟩) := by
    decide +kernel
  cases (Exec.ok.inj (Option.some.inj (hopen.symm.trans ho)))
  have ⟨⟨_, hf, hcalls⟩, _⟩ := hr 5
  refine ⟨_, hopen, rfl, hf.length_eq.symm, fun call hc => ?_⟩
  have ⟨path, hp, _, _, hro⟩ := hcalls call hc
  cases List.mem_singleton.mp hp
  exact hro

end

end Collection
end Latent
