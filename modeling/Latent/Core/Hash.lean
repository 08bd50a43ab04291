import Latent.Rust.Read
import Latent.Text.Hex

open Rust

namespace Latent

variable {σ ε : Type} {r : Reader σ ε UInt8} {fuel : ℕ} {s s' : σ} {l : Bytes}

-- The bytes that a reader returns up to its first empty read, in pieces of at most 64 KiB.
def fedBytes (r : Reader σ ε UInt8) (fuel : ℕ) (reader : σ) : Option (Exec ε Bytes) :=
  r.fold (64 * 1024) (· ++ ·) fuel reader []

theorem fedBytes_of_steps (hs : r.Steps (64 * 1024) s l s') (he : r.Ends (64 * 1024) s')
    (hf : l.length < fuel) : fedBytes r fuel s = some (.ok l) := by
  rw [fedBytes, Reader.fold_of_steps List.append_nil (fun _ _ _ => (List.append_assoc ..).symm) hs he hf,
    List.nil_append]

theorem steps_of_fedBytes (h : fedBytes r fuel s = some (.ok l)) :
    ∃ s', r.Steps (64 * 1024) s l s' ∧ r.Ends (64 * 1024) s' := by
  have ⟨l', s', hs, he, hl⟩ :=
    Reader.steps_of_fold List.append_nil (fun _ _ _ => (List.append_assoc ..).symm) h
  rw [List.nil_append] at hl
  exact ⟨s', hl ▸ hs, he⟩

-- SHA-256 as a streaming hash: what counts is which bytes are fed to it, not in which pieces.
class Sha256 where
  State         : Type
  new           : State
  update        : State → Bytes → State
  finalize      : State → Bytes
  update_nil    : ∀ hasher, update hasher [] = hasher
  update_append : ∀ hasher l₁ l₂, update hasher (l₁ ++ l₂) = update (update hasher l₁) l₂

variable [Sha256]

def Sha256.digest (l : Bytes) : Bytes :=
  finalize (update new l)

-- The digest as it is printed.
def hexDigest (l : Bytes) : List Char :=
  Text.hex (Sha256.digest l)

-- The hash of an in-memory slice, which the reader hands out in pieces of at most 64 KiB.
def sha256Reader (reader : Bytes) : List Char :=
  Text.hex <| Sha256.finalize <| go reader.length reader Sha256.new
where
  go : (fuel : ℕ) → Bytes → Sha256.State → Sha256.State
    | 0, _, hasher             => hasher
    | fuel + 1, reader, hasher =>
      let n := min (64 * 1024) reader.length
      if n = 0 then
        hasher
      else
        go fuel (reader.drop n) (Sha256.update hasher (reader.take n))

theorem sha256Reader_go_eq {fuel : ℕ} {reader : Bytes} (h : reader.length ≤ fuel) (hasher : Sha256.State) :
    sha256Reader.go fuel reader hasher = Sha256.update hasher reader := by
  induction fuel generalizing reader hasher with
  | zero =>
    have hn := List.length_eq_zero_iff.mp (Nat.le_zero.mp h)
    rw [hn, Sha256.update_nil]
    rfl
  | succ fuel hi =>
    simp only [sha256Reader.go]
    split
    case isTrue h₀ =>
      have hn : reader = [] := List.length_eq_zero_iff.mp (by omega)
      rw [hn, Sha256.update_nil]
    case isFalse h₀ =>
      rw [hi (by simp only [List.length_drop]; omega), ← Sha256.update_append, List.take_append_drop]

theorem sha256Reader_eq (reader : Bytes) : sha256Reader reader = Text.hex (Sha256.digest reader) := by
  rw [sha256Reader, sha256Reader_go_eq (Nat.le_refl _), Sha256.digest]

-- The same loop over any reader.
def sha256ReaderOf (r : Reader σ ε UInt8) (fuel : ℕ) (reader : σ) : Option (Exec ε (List Char)) :=
  (r.fold (64 * 1024) Sha256.update fuel reader Sha256.new).map
    ((fun hasher => Text.hex (Sha256.finalize hasher)) <$> ·)

theorem sha256ReaderOf_eq : sha256ReaderOf r fuel s =
    (fedBytes r fuel s).map (hexDigest <$> ·) := by
  have hm : (fedBytes r fuel s).map ((Sha256.update Sha256.new ·) <$> ·) = _ :=
    Reader.fold_map (m := Sha256.update Sha256.new) fun b l => Sha256.update_append Sha256.new b l
  rw [Sha256.update_nil] at hm
  rw [sha256ReaderOf, ← hm, Option.map_map]
  congr 1
  funext x
  cases x <;> rfl

theorem sha256ReaderOf_of_steps (hs : r.Steps (64 * 1024) s l s') (he : r.Ends (64 * 1024) s')
    (hf : l.length < fuel) : sha256ReaderOf r fuel s = some (.ok (hexDigest l)) := by
  rw [sha256ReaderOf_eq, fedBytes_of_steps hs he hf]
  rfl

theorem sha256ReaderOf_slice (hf : l.length < fuel) :
    sha256ReaderOf Reader.ofSlice fuel l = some (.ok (sha256Reader l)) := by
  rw [sha256Reader_eq]
  exact sha256ReaderOf_of_steps (Reader.steps_ofSlice (by decide) l) Reader.ends_ofSlice hf

end Latent
