import Latent.Source.Basic
import Mathlib.Data.List.Lex
import Mathlib.Data.List.Sort

open Rust

namespace Latent

-- What `file_type` says of an entry. Symbolic links are not followed.
inductive FileType
  | dir
  | file
  | other
  deriving DecidableEq, Repr

-- The part of the file system that an enumeration sees. A path is the list of its components. A call
-- that fails gives no value, and a listing that succeeds may still fail on single entries.
structure Os (Name : Type) where
  display  : List Name → String
  isDir    : List Name → Exec String Bool
  readDir  : List Name → Option (List (Option Name))
  fileType : List Name → Option FileType
  len      : List Name → Option ℕ

structure Collection (Name : Type) where
  root    : List Name
  files   : List (List Name)
  skipped : List (List Name)
  deriving DecidableEq, Repr

namespace Collection

variable {Name : Type}

def skip (c : Collection Name) (path : List Name) : Collection Name :=
  { c with skipped := c.skipped ++ [path] }

section

variable [LinearOrder Name]

-- The fuel bounds the depth of the recursion; there is no result when it runs out.
def walk (os : Os Name) : ℕ → List Name → Collection Name → Option (Collection Name)
  | 0, _, _          => none
  | fuel + 1, dir, c =>
    match os.readDir dir with
    | none         => some c
    | some listing =>
      let entries := (listing.filterMap id).insertionSort (· ≤ ·)
      entries.foldlM (fun c name =>
        let path := dir ++ [name]
        match os.fileType path with
        | none        => some (c.skip path)
        | some .dir   => walk os fuel path c
        | some .file  =>
          if ((os.len path).map (· == 0)).getD true then
            some (c.skip path)
          else
            some { c with files := c.files ++ [path] }
        | some .other => some (c.skip path)) c

-- The system is asked once whether the root is a directory, and then the walk starts there.
def «open» (os : Os Name) (fuel : ℕ) (root : List Name) : Option (Exec SourceError (Collection Name)) :=
  match os.isDir root with
  | .panic    => some .panic
  | .err e    => some <| .err <| .io (os.display root) e
  | .ok false => some <| .err <| .unrecognized (os.display root)
  | .ok true  => (walk os fuel root { root, files := [], skipped := [] }).map .ok

end
end Collection

namespace Os

variable {Name : Type}

-- The listing of the directory succeeds, and this is one of the entries that can be read.
def Lists (os : Os Name) (dir : List Name) (name : Name) : Prop :=
  ∃ listing, os.readDir dir = some listing ∧ some name ∈ listing

-- The entries that are reached from a directory.
inductive Below (os : Os Name) : List Name → List Name → Prop
  | entry {dir name}      : os.Lists dir name → Below os dir (dir ++ [name])
  | deeper {dir name path} : os.Lists dir name → os.fileType (dir ++ [name]) = some .dir →
      Below os (dir ++ [name]) path → Below os dir path

-- Directories are nested less than `n` deep, so the tree below `dir` is finite.
def Nests (os : Os Name) : ℕ → List Name → Prop
  | 0, _       => False
  | n + 1, dir => ∀ name, os.Lists dir name → os.fileType (dir ++ [name]) = some .dir →
      Nests os n (dir ++ [name])

def NonEmptyFile (os : Os Name) (path : List Name) : Prop :=
  os.fileType path = some .file ∧ ∃ len, os.len path = some len ∧ len ≠ 0

-- Whether the path goes to the files, for a path that is no directory.
def keeps (os : Os Name) (path : List Name) : Bool :=
  os.fileType path == some .file && !((os.len path).map (· == 0)).getD true

variable {os : Os Name} {dir path : List Name} {name : Name} {n m : ℕ}

theorem keeps_iff : os.keeps path = true ↔ os.NonEmptyFile path := by
  cases hl : os.len path with
  | none     => simp [keeps, NonEmptyFile, hl]
  | some len => simp [keeps, NonEmptyFile, hl]

theorem Nests.mono (h : os.Nests n dir) (hle : n ≤ m) : os.Nests m dir := by
  induction n generalizing m dir with
  | zero => exact h.elim
  | succ n hi =>
    obtain ⟨m, rfl⟩ := Nat.exists_eq_succ_of_ne_zero (Nat.pos_iff_ne_zero.mp (by omega : 0 < m))
    exact fun name hl hd => hi (h name hl hd) (Nat.le_of_succ_le_succ hle)

-- A path below a directory goes through one of the directory's entries.
theorem Below.exists_entry (h : os.Below dir path) : ∃ name rest, os.Lists dir name ∧ path = dir ++ name :: rest := by
  induction h with
  | entry hl => exact ⟨_, [], hl, rfl⟩
  | deeper hl _ _ hi =>
    have ⟨name', rest, _, he⟩ := hi
    exact ⟨_, name' :: rest, hl, by simp [he]⟩

variable [LinearOrder Name]

-- The entries of a directory in the order of their names, none if it cannot be listed.
def names (os : Os Name) (dir : List Name) : List Name :=
  (((os.readDir dir).getD []).filterMap id).insertionSort (· ≤ ·)

theorem mem_names : name ∈ os.names dir ↔ os.Lists dir name := by
  cases h : os.readDir dir with
  | none         => simp [names, Lists, h]
  | some listing => simp [names, Lists, h]

-- The entries below a directory that are not directories themselves, as a depth-first walk meets them.
def leaves (os : Os Name) : ℕ → List Name → List (List Name)
  | 0, _          => []
  | fuel + 1, dir => (os.names dir).flatMap fun name =>
    if os.fileType (dir ++ [name]) = some .dir then leaves os fuel (dir ++ [name]) else [dir ++ [name]]

theorem mem_leaves (h : os.Nests n dir) :
    path ∈ os.leaves n dir ↔ os.Below dir path ∧ os.fileType path ≠ some .dir := by
  induction n generalizing dir path with
  | zero => exact h.elim
  | succ n hi =>
    simp only [leaves, List.mem_flatMap, mem_names]
    constructor
    case mp =>
      intro ⟨name, hl, hp⟩
      split at hp
      case isTrue hd =>
        have ⟨hb, hne⟩ := (hi (h name hl hd)).mp hp
        exact ⟨.deeper hl hd hb, hne⟩
      case isFalse hd =>
        cases List.mem_singleton.mp hp
        exact ⟨.entry hl, hd⟩
    case mpr =>
      intro ⟨hb, hne⟩
      cases hb with
      | entry hl => exact ⟨_, hl, by rw [if_neg hne]; exact List.mem_singleton_self _⟩
      | deeper hl hd hb => exact ⟨_, hl, by rw [if_pos hd]; exact (hi (h _ hl hd)).mpr ⟨hb, hne⟩⟩

end Os

namespace Collection

variable {Name : Type} {os : Os Name} {c : Collection Name} {dir path : List Name} {n : ℕ}

-- The collection after a walk has met the given paths.
def extend (os : Os Name) (c : Collection Name) (paths : List (List Name)) : Collection Name where
  root    := c.root
  files   := c.files ++ paths.filter os.keeps
  skipped := c.skipped ++ paths.filter fun path => !os.keeps path

@[simp] theorem extend_nil : c.extend os [] = c := by
  simp [extend]

theorem extend_append {l₁ l₂ : List (List Name)} : (c.extend os l₁).extend os l₂ = c.extend os (l₁ ++ l₂) := by
  simp [extend]

variable [LinearOrder Name]

-- What the walk does with one entry of a directory.
def visit (os : Os Name) (fuel : ℕ) (dir : List Name) (c : Collection Name) (name : Name) :
    Option (Collection Name) :=
  if os.fileType (dir ++ [name]) = some .dir then
    walk os fuel (dir ++ [name]) c
  else
    some (c.extend os [dir ++ [name]])

theorem walk_succ {fuel : ℕ} : walk os (fuel + 1) dir c = (os.names dir).foldlM (visit os fuel dir) c := by
  cases h : os.readDir dir with
  | none => simp [walk, Os.names, h]
  | some listing =>
    simp only [walk, Os.names, h, Option.getD_some]
    congr 1
    funext c name
    cases hf : os.fileType (dir ++ [name]) with
    | none    => simp [visit, hf, skip, extend, Os.keeps]
    | some ft =>
      cases ft
      case dir   => simp [visit, hf]
      case other => simp [visit, hf, skip, extend, Os.keeps]
      case file =>
        simp only [visit, hf]
        cases hk : ((os.len (dir ++ [name])).map (· == 0)).getD true <;>
          simp [hk, hf, skip, extend, Os.keeps]

-- A walk sorts the leaves below a directory into the two lists, in the order in which it meets them.
theorem walk_eq (h : os.Nests n dir) : walk os n dir c = some (c.extend os (os.leaves n dir)) := by
  induction n generalizing dir c with
  | zero => exact h.elim
  | succ n hi =>
    have hv : ∀ c : Collection Name, ∀ name ∈ os.names dir, visit os n dir c name =
        some (c.extend os (if os.fileType (dir ++ [name]) = some .dir then os.leaves n (dir ++ [name])
          else [dir ++ [name]])) := by
      intro c name hname
      rw [visit]
      split
      case isTrue hd => exact hi (h name (Os.mem_names.mp hname) hd)
      case isFalse   => rfl
    rw [walk_succ, Os.leaves]
    generalize os.names dir = names at hv
    induction names generalizing c with
    | nil => simp
    | cons name names hn =>
      rw [List.foldlM_cons, hv c name List.mem_cons_self, List.flatMap_cons, ← extend_append]
      exact hn fun c name hname => hv c name (List.mem_cons_of_mem _ hname)

theorem open_eq (hn : os.Nests n dir) (hd : os.isDir dir = .ok true) :
    «open» os n dir = some (.ok (extend os { root := dir, files := [], skipped := [] } (os.leaves n dir))) := by
  rw [«open», hd]
  simp only [walk_eq hn, Option.map_some]

end Collection
end Latent
