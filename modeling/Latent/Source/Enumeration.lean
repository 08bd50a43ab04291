import Latent.Source.Collection
import Mathlib.Data.String.Basic

open Rust

namespace Latent

namespace Os

variable {Name : Type} {os os' : Os Name} {dir path root : List Name} {name : Name} {n fuel : ℕ}

-- No directory has two entries of one name.
def UniqueNames (os : Os Name) : Prop :=
  ∀ dir listing, os.readDir dir = some listing → (listing.filterMap id).Nodup

-- The same tree, whose directories the system enumerates in any other order.
structure SameTree (os os' : Os Name) : Prop where
  display  : os'.display = os.display
  isDir    : os'.isDir = os.isDir
  readDir  : ∀ dir, Option.Rel List.Perm (os'.readDir dir) (os.readDir dir)
  fileType : os'.fileType = os.fileType
  len      : os'.len = os.len

theorem SameTree.refl (os : Os Name) : os.SameTree os where
  display   := rfl
  isDir     := rfl
  fileType  := rfl
  len       := rfl
  readDir d := by
    cases os.readDir d with
    | none   => exact .none
    | some l => exact .some (.refl l)

-- The directory is listed, and each of its entries can be read.
def ListedInFull (os : Os Name) (dir : List Name) : Prop :=
  ∃ listing, os.readDir dir = some listing ∧ none ∉ listing

def Descended (os : Os Name) (path : List Name) : Prop :=
  os.fileType path = some .dir ∧ ∃ listing, os.readDir path = some listing

-- The directories that a walk from the root comes to.
def Visits (os : Os Name) (root dir : List Name) : Prop :=
  dir = root ∨ (os.Below root dir ∧ os.fileType dir = some .dir)

variable [LinearOrder Name]

theorem SameTree.names_eq (h : os.SameTree os') : os'.names dir = os.names dir := by
  have hp : ∀ {x y : Option (List (Option Name))}, Option.Rel List.Perm x y →
      ((x.getD []).filterMap id).Perm ((y.getD []).filterMap id) := by
    intro x y hr
    cases hr with
    | none    => exact .refl _
    | some hp => exact hp.filterMap id
  refine List.Perm.eq_of_pairwise (fun _ _ _ _ => le_antisymm) (List.pairwise_insertionSort ..)
    (List.pairwise_insertionSort ..) ?_
  exact (List.perm_insertionSort ..).trans ((hp (h.readDir dir)).trans (List.perm_insertionSort ..).symm)

theorem pairwise_names (hu : os.UniqueNames) : (os.names dir).Pairwise (· < ·) := by
  have hn : (((os.readDir dir).getD []).filterMap id).Nodup := by
    cases h : os.readDir dir with
    | none   => exact List.nodup_nil
    | some l => exact hu dir l h
  have hn : (os.names dir).Nodup := (List.perm_insertionSort ..).nodup_iff.mpr hn
  exact ((List.pairwise_insertionSort ..).and hn).imp fun ⟨hle, hne⟩ => lt_of_le_of_ne hle hne

-- What the walk meets for one entry lies under the entry's name.
theorem exists_rest_of_mem_leaves (h : path ∈ os.leaves n dir) : ∃ name rest, path = dir ++ name :: rest := by
  induction n generalizing dir with
  | zero => simp [leaves] at h
  | succ n hi =>
    obtain ⟨name, _, hp⟩ := List.mem_flatMap.mp h
    split at hp
    case isTrue =>
      obtain ⟨name', rest, he⟩ := hi hp
      exact ⟨name, name' :: rest, by rw [he, List.append_assoc, List.singleton_append]⟩
    case isFalse => exact ⟨name, [], List.mem_singleton.mp hp⟩

-- The walk is depth-first with siblings in the order of their names: paths ascend component by component.
theorem pairwise_leaves (hu : os.UniqueNames) : (os.leaves n dir).Pairwise (· < ·) := by
  induction n generalizing dir with
  | zero => exact .nil
  | succ n hi =>
    refine List.pairwise_flatMap.mpr ⟨fun name _ => ?_, (pairwise_names hu).imp ?_⟩
    · split
      case isTrue  => exact hi
      case isFalse => exact List.pairwise_singleton ..
    · have hunder : ∀ name, ∀ path ∈ (if os.fileType (dir ++ [name]) = some .dir then
          os.leaves n (dir ++ [name]) else [dir ++ [name]]), ∃ rest, path = dir ++ name :: rest := by
        intro name path hp
        split at hp
        case isTrue =>
          have ⟨name', rest, he⟩ := exists_rest_of_mem_leaves hp
          exact ⟨name' :: rest, by rw [he, List.append_assoc, List.singleton_append]⟩
        case isFalse => exact ⟨[], List.mem_singleton.mp hp⟩
      intro name₁ name₂ hlt path₁ hp₁ path₂ hp₂
      obtain ⟨rest₁, rfl⟩ := hunder name₁ path₁ hp₁
      obtain ⟨rest₂, rfl⟩ := hunder name₂ path₂ hp₂
      exact List.append_left_lt (List.cons_lt_cons_iff.mpr (.inl hlt))

end Os

namespace Collection

variable {Name : Type} [LinearOrder Name] {os os' : Os Name} {c : Collection Name}
variable {dir root : List Name} {n fuel : ℕ}

theorem visit_sameTree (h : os.SameTree os')
    (hw : ∀ (dir : List Name) (c : Collection Name), walk os' fuel dir c = walk os fuel dir c) :
    visit os' fuel dir = visit os fuel dir := by
  funext c name
  have hk : os'.keeps = os.keeps := by
    funext path
    rw [Os.keeps, Os.keeps, h.fileType, h.len]
  simp only [visit, extend, hw, h.fileType, hk]

-- Sorting by name makes the walk forget the order of the enumeration.
theorem walk_sameTree (h : os.SameTree os') : walk os' n dir c = walk os n dir c := by
  induction n generalizing dir c with
  | zero => rfl
  | succ n hi => rw [walk_succ, walk_succ, h.names_eq, visit_sameTree h fun _ _ => hi]

theorem open_sameTree (h : os.SameTree os') : «open» os' n root = «open» os n root := by
  simp only [«open», h.isDir, h.display, walk_sameTree h]

-- The lists are determined by the tree: each is the depth-first walk over its own kind of entries.
theorem open_enumerates (hu : os.UniqueNames) (hn : os.Nests n root) (hf : n ≤ fuel)
    (hd : os.isDir root = .ok true) :
    ∃ c, (∀ os', os.SameTree os' → «open» os' fuel root = some (.ok c)) ∧
      (c.files.Pairwise (· < ·) ∧ ∀ path, path ∈ c.files ↔ os.Below root path ∧ os.NonEmptyFile path) ∧
      (c.skipped.Pairwise (· < ·) ∧ ∀ path, path ∈ c.skipped ↔
        os.Below root path ∧ os.fileType path ≠ some .dir ∧ ¬os.NonEmptyFile path) ∧
      ∀ path, os.Below root path → os.fileType path ≠ some .dir → (c.files ++ c.skipped).count path = 1 := by
  have hn := hn.mono hf
  have hw : (os.leaves fuel root).Pairwise (· < ·) := Os.pairwise_leaves hu
  refine ⟨_, fun os' h => (open_sameTree h).trans (open_eq hn hd), ⟨?filesOrder, ?files⟩,
    ⟨?skippedOrder, ?skipped⟩, ?once⟩
  case filesOrder   => exact hw.filter _
  case skippedOrder => exact hw.filter _
  case files =>
    intro path
    simp only [extend, List.nil_append, List.mem_filter, Os.mem_leaves hn, Os.keeps_iff]
    constructor
    case mp  => exact fun h => ⟨h.1.1, h.2⟩
    case mpr => exact fun h => ⟨⟨h.1, by simp [h.2.1]⟩, h.2⟩
  case skipped =>
    intro path
    simp only [extend, List.nil_append, List.mem_filter, Os.mem_leaves hn, Bool.not_eq_true',
      ← Bool.not_eq_true, Os.keeps_iff, and_assoc]
  case once =>
    intro path hb hne
    have hp : ((os.leaves fuel root).filter os.keeps ++
        (os.leaves fuel root).filter fun path => !os.keeps path).Perm (os.leaves fuel root) :=
      List.filter_append_perm ..
    simp only [extend, List.nil_append, hp.count_eq]
    exact List.count_eq_one_of_mem (hw.imp ne_of_lt) ((Os.mem_leaves hn).mpr ⟨hb, hne⟩)

-- An evidence directory with an empty file, a file that is not empty and a directory of two more files.
def nested : Os String where
  display      := String.intercalate "/"
  isDir _      := .ok true
  readDir path :=
    if path = ["case"] then some [some "logs", some "b.img", some "a.img"]
    else if path = ["case", "logs"] then some [some "2.log", some "1.log"]
    else none
  fileType path := if path = ["case", "logs"] then some .dir else some .file
  len path     := some (if path = ["case", "a.img"] then 0 else 2)

theorem nests_nested : nested.Nests 2 ["case"] := by
  intro name _ hd name' _ hd'
  simp only [nested, List.singleton_append, List.cons.injEq, and_true, true_and, ite_eq_left_iff] at hd
  have hn : name = "logs" := by
    by_contra hn
    cases hd hn
  simp [nested, hn] at hd'

theorem uniqueNames_nested : nested.UniqueNames := by
  intro dir listing hr
  simp only [nested] at hr
  split at hr
  case isTrue  => cases hr; decide
  case isFalse =>
    split at hr
    case isTrue  => cases hr; decide
    case isFalse => cases hr

theorem open_enumerates_nested : ∃ c, (∀ os', nested.SameTree os' → «open» os' 2 ["case"] = some (.ok c)) ∧
    c.files = [["case", "b.img"], ["case", "logs", "1.log"], ["case", "logs", "2.log"]] ∧
    c.skipped = [["case", "a.img"]] ∧
    (∀ path, path ∈ c.files ↔ nested.Below ["case"] path ∧ nested.NonEmptyFile path) ∧
    ∀ path, nested.Below ["case"] path → nested.fileType path ≠ some .dir →
      (c.files ++ c.skipped).count path = 1 := by
  have ⟨c, ho, hf, _, hone⟩ := open_enumerates uniqueNames_nested nests_nested (Nat.le_refl _) rfl
  have hopen : «open» nested 2 ["case"] = some (.ok ⟨["case"],
      [["case", "b.img"], ["case", "logs", "1.log"], ["case", "logs", "2.log"]], [["case", "a.img"]]⟩) := by
    decide +kernel
  cases Exec.ok.inj (Option.some.inj (hopen.symm.trans (ho nested (Os.SameTree.refl _))))
  exact ⟨_, ho, rfl, rfl, hf.2, hone⟩

-- What the enumeration says of the tree: it was listed from the root on, every entry that was not
-- descended into is in one of the lists, and so is every directory of which anything could not be read.
structure Accounts (os : Os Name) (root : List Name) (c : Collection Name) : Prop where
  listed  : ∃ listing, os.readDir root = some listing
  entries : ∀ path, os.Below root path → ¬os.Descended path → path ∈ c.files ∨ path ∈ c.skipped
  partly  : ∀ dir, os.Visits root dir → ¬os.ListedInFull dir → dir ∈ c.skipped

theorem mem_lists (hn : os.Nests n root) {path : List Name}
    (h : path ∈ (extend os { root, files := [], skipped := [] } (os.leaves n root)).files ∨
      path ∈ (extend os { root, files := [], skipped := [] } (os.leaves n root)).skipped) :
    os.Below root path ∧ os.fileType path ≠ some .dir := by
  simp only [extend, List.nil_append, List.mem_filter] at h
  cases h with
  | inl h => exact (Os.mem_leaves hn).mp h.1
  | inr h => exact (Os.mem_leaves hn).mp h.1

theorem mem_lists_of_below (hn : os.Nests n root) {path : List Name} (hb : os.Below root path)
    (hne : os.fileType path ≠ some .dir) :
    path ∈ (extend os { root, files := [], skipped := [] } (os.leaves n root)).files ∨
    path ∈ (extend os { root, files := [], skipped := [] } (os.leaves n root)).skipped := by
  have hm := (Os.mem_leaves hn).mpr ⟨hb, hne⟩
  simp only [extend, List.nil_append, List.mem_filter]
  cases hk : os.keeps path with
  | true  => exact .inl ⟨hm, rfl⟩
  | false => exact .inr ⟨hm, rfl⟩

-- A directory is in neither list, so nothing tells of one that could not be listed in full.
theorem not_mem_skipped_of_visits (hn : os.Nests n root) (h : os.Visits root dir) :
    dir ∉ (extend os { root, files := [], skipped := [] } (os.leaves n root)).skipped := by
  intro hm
  have ⟨hb, hne⟩ := mem_lists hn (.inr hm)
  cases h with
  | inl he =>
    have ⟨name, rest, _, hp⟩ := hb.exists_entry
    simp [he] at hp
  | inr hd => exact hne hd.2

-- Nothing disappears exactly when every directory that is visited can be listed in full.
theorem accounts_iff (hn : os.Nests n root) (hf : n ≤ fuel) :
    (∃ r, «open» os fuel root = some r ∧ ∀ c, r = .ok c → c.Accounts os root) ↔
      (os.isDir root = .ok true → ∀ dir, os.Visits root dir → os.ListedInFull dir) := by
  have hn := hn.mono hf
  constructor
  case mp =>
    intro ⟨r, hr, h⟩ hd dir hv
    rw [open_eq hn hd] at hr
    have ha := h _ (Option.some.inj hr).symm
    by_contra hl
    exact not_mem_skipped_of_visits hn hv (ha.partly dir hv hl)
  case mpr =>
    intro h
    by_cases hd : os.isDir root = .ok true
    case pos =>
      refine ⟨_, open_eq hn hd, fun c hc => ?_⟩
      cases hc
      have hroot := h hd root (.inl rfl)
      refine ⟨?listed, ?entries, ?partly⟩
      case listed  => exact hroot.imp fun _ hl => hl.1
      case partly  => exact fun dir hv hl => absurd (h hd dir hv) hl
      case entries =>
        intro path hb hnd
        refine mem_lists_of_below hn hb fun hdir => hnd ⟨hdir, ?_⟩
        exact (h hd path (.inr ⟨hb, hdir⟩)).imp fun _ hl => hl.1
    case neg =>
      cases hx : os.isDir root with
      | ok b =>
        cases b with
        | true  => exact absurd hx hd
        | false => exact ⟨_, by rw [«open», hx], by simp⟩
      | err e => exact ⟨_, by rw [«open», hx], by simp⟩
      | panic => exact ⟨_, by rw [«open», hx], by simp⟩

-- An evidence directory with an empty file, a file that is not empty and a directory nobody may list.
def sealed : Os String where
  display      := String.intercalate "/"
  isDir _      := .ok true
  readDir path := if path = ["case"] then some [some "sealed", some "b.img", some "a.img"] else none
  fileType path := if path = ["case", "sealed"] then some .dir else some .file
  len path     := some (if path = ["case", "a.img"] then 0 else 2)

theorem nests_sealed : sealed.Nests 2 ["case"] := by
  intro name _ _ name' hl _
  obtain ⟨listing, hr, _⟩ := hl
  simp [sealed] at hr

theorem accounts_iff_sealed :
    (∃ r, «open» sealed 2 ["case"] = some r ∧ ∀ c, r = .ok c → c.Accounts sealed ["case"]) ↔
      (sealed.isDir ["case"] = .ok true → ∀ dir, sealed.Visits ["case"] dir → sealed.ListedInFull dir) :=
  accounts_iff nests_sealed (Nat.le_refl _)

theorem not_accounts_sealed : ∃ c, «open» sealed 2 ["case"] = some (.ok c) ∧
    ["case", "sealed"] ∉ c.files ++ c.skipped ∧ ¬c.Accounts sealed ["case"] := by
  have hnot : ["case", "sealed"] ∉ (extend sealed ⟨["case"], [], []⟩ (sealed.leaves 2 ["case"])).files ++
      (extend sealed ⟨["case"], [], []⟩ (sealed.leaves 2 ["case"])).skipped := fun hm =>
    (mem_lists nests_sealed (List.mem_append.mp hm)).2 rfl
  have hbelow : sealed.Below ["case"] ["case", "sealed"] := .entry ⟨_, rfl, List.mem_cons_self⟩
  have hclosed : ¬sealed.Descended ["case", "sealed"] := by
    intro ⟨_, listing, hr⟩
    simp [sealed] at hr
  exact ⟨_, open_eq nests_sealed rfl, hnot, fun h => hnot (List.mem_append.mpr (h.entries _ hbelow hclosed))⟩

end Collection
end Latent
