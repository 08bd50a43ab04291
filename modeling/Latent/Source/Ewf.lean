import Latent.Rust.Logged
import Latent.Rust.Resources
import Latent.Source.Raw

open Rust

namespace Latent

-- What the calls to the library return and what they put behind their out-parameters. There is none
-- where a call does not succeed.
structure Libewf where
  glob              : (path : String) → Option (ℕ × ℤ)
  handleInitialize  : Option ℕ
  handleOpen        : (handle names : ℕ) → (number : ℤ) → Bool
  getMediaSize      : (handle : ℕ) → Option UInt64
  getHashValueSize  : (handle : ℕ) → (id : Bytes) → Option ℕ
  getHashValue      : (handle : ℕ) → (id : Bytes) → (size : ℕ) → Option Bytes
  readRandom        : (handle size : ℕ) → (offset : ℤ) → Option Bytes

namespace Libewf

-- A call with the addresses and the buffer lengths it is made with, and with the address it returns.
inductive Call
  | glob (path : String) (names : Option ℕ)
  | globFree (names : ℕ) (number : ℤ)
  | handleInitialize (handle : Option ℕ)
  | handleOpen (handle names : ℕ) (number : ℤ) (flags : ℕ) (opened : Bool)
  | getMediaSize (handle : ℕ)
  | getHashValueSize (handle : ℕ) (id : Bytes)
  | getHashValue (handle : ℕ) (id : Bytes) (size buf : ℕ)
  | readRandom (handle size : ℕ) (offset : ℤ) (buf : ℕ)
  | handleClose (handle : ℕ)
  | handleFree (handle : ℕ)
  deriving DecidableEq, Repr

inductive Resource
  | names (address : ℕ)
  | handle (address : ℕ)
  deriving DecidableEq, Repr

inductive Phase
  | allocated
  | opened
  deriving DecidableEq, Repr

namespace Call

-- What the library's documentation lets a call do to the list of names and to the handle.
def effects : Call → List (Effect Resource Phase)
  | glob _ names                          => names.toList.map fun names => .acquire (.names names) .allocated
  | globFree names _                      => [.release (.names names) .allocated]
  | handleInitialize handle               => handle.toList.map fun handle => .acquire (.handle handle) .allocated
  | handleOpen handle names _ _ opened    =>
    [.use (.names names) .allocated, .move (.handle handle) .allocated (if opened then .opened else .allocated)]
  | getMediaSize handle                   => [.use (.handle handle) .opened]
  | getHashValueSize handle _             => [.use (.handle handle) .opened]
  | getHashValue handle _ _ _             => [.use (.handle handle) .opened]
  | readRandom handle _ _ _               => [.use (.handle handle) .opened]
  | handleClose handle                    => [.move (.handle handle) .opened .allocated]
  | handleFree handle                     => [.release (.handle handle) .allocated]

-- The library is told no more than the length of the buffer that it writes to.
def FitsBuffer : Call → Prop
  | getHashValue _ _ size buf => size ≤ buf
  | readRandom _ size _ buf   => size ≤ buf
  | _                         => True

end Call
end Libewf

structure EwfSource where
  handle    : ℕ
  identity  : Identity
  mediaSize : UInt64
  md5       : Option String
  sha1      : Option String
  deriving DecidableEq, Repr

namespace EwfSource

open Libewf Logged

def MAGIC : Bytes :=
  [0x45, 0x56, 0x46, 0x09, 0x0d, 0x0a, 0xff, 0x00]

def OPEN_READ : ℕ :=
  1

-- Only the segments of this image are looked for, and they are not opened for anything but reading.
def ReadOnly (path : String) : Call → Prop
  | .glob p _                 => p = path
  | .handleOpen _ _ _ flags _ => flags = OPEN_READ
  | _                         => True

-- "MD5" and "SHA1"
def MD5 : Bytes :=
  [0x4d, 0x44, 0x35]

def SHA1 : Bytes :=
  [0x53, 0x48, 0x41, 0x31]

-- The text in front of the first zero byte.
def hashText (buf : Bytes) : Option String :=
  let «end» := (buf.findIdx? (· = 0)).getD buf.length
  String.fromUTF8? ⟨(buf.take «end»).toArray⟩

def hashValue {ε : Type} (lib : Libewf) (handle : ℕ) (id : Bytes) : Logged Call ε (Option String) := do
  note (.getHashValueSize handle id)
  match lib.getHashValueSize handle id with
  | none      => return none
  | some size =>
    if size ≤ 1 then
      return none
    else
      let buf := Bytes.zeros size
      note (.getHashValue handle id size buf.length)
      match lib.getHashValue handle id size with
      | none         => return none
      | some written => return hashText (put buf 0 (written.take size))

def «open» (lib : Libewf) (path : String) : Logged Call SourceError EwfSource :=
  let bad (detail : String) := SourceError.malformed path "ewf" detail
  if path.toList.contains (Char.ofNat 0) then
    quiet <| .err <| bad "path contains a NUL byte"
  else do
    note (.glob path ((lib.glob path).map (·.1)))
    match lib.glob path with
    | none                 => quiet <| .err <| bad "could not enumerate EWF segments"
    | some (names, number) =>
      note (.handleInitialize lib.handleInitialize)
      match lib.handleInitialize with
      | none        =>
        note (.globFree names number)
        quiet <| .err <| bad "libewf handle could not be created"
      | some handle =>
        let opened := lib.handleOpen handle names number
        note (.handleOpen handle names number OPEN_READ opened)
        note (.globFree names number)
        if opened = false then
          note (.handleFree handle)
          quiet <| .err <| bad "not a readable EWF image"
        else
          note (.getMediaSize handle)
          match lib.getMediaSize handle with
          | none           =>
            note (.handleClose handle)
            note (.handleFree handle)
            quiet <| .err <| bad "could not read the media size"
          | some mediaSize =>
            let md5 ← hashValue lib handle MD5
            let sha1 ← hashValue lib handle SHA1
            return { handle, identity := { path, format := .ewf }, mediaSize, md5, sha1 }

-- `offset as i64`
def asI64 (offset : ℕ) : ℤ :=
  if offset < 2 ^ 63 then offset else offset - 2 ^ 64

-- The library may answer a read in any way, and differently each time.
def readAt (s : EwfSource) (lib : Libewf) (offset len : ℕ) : Logged Call SourceError Bytes :=
  if s.mediaSize.toNat < offset then
    quiet <| .err <| .outOfRange offset s.mediaSize.toNat
  else
    let n := min len (s.mediaSize.toNat - offset)
    if n = 0 then
      return []
    else do
      note (.readRandom s.handle n (asI64 offset) len)
      match lib.readRandom s.handle n (asI64 offset) with
      | none       => quiet <| .err <| .malformed s.identity.path "ewf" "read failed"
      | some bytes => return bytes

def drop (s : EwfSource) : List Call :=
  [.handleClose s.handle, .handleFree s.handle]

def toSource (s : EwfSource) (lib : Libewf) : Source where
  size              := s.mediaSize.toNat
  identity          := s.identity
  readAt offset len := (s.readAt lib offset len).exec

-- What the documentation says of reads from the media of an image. Positions are signed.
structure Serves (s : EwfSource) (lib : Libewf) (content : Bytes) : Prop where
  mediaSize : s.mediaSize.toNat = content.length
  read      : ∀ {offset n : ℕ}, 0 < n → offset + n ≤ content.length →
    ∃ k, 0 < k ∧ k ≤ n ∧ lib.readRandom s.handle n offset = some (subslice content offset k)
  negative  : ∀ {offset : ℤ} n, offset < 0 → lib.readRandom s.handle n offset = none

variable {s : EwfSource} {lib : Libewf} {content : Bytes}

theorem readAt_outOfRange {offset : ℕ} (len : ℕ) (h : s.mediaSize.toNat < offset) :
    (s.readAt lib offset len).exec = .err (.outOfRange offset s.mediaSize.toNat) := by
  rw [readAt, if_pos h, exec_quiet]

theorem readAt_nothing {offset len : ℕ} (h : offset ≤ s.mediaSize.toNat)
    (hn : min len (s.mediaSize.toNat - offset) = 0) : (s.readAt lib offset len).exec = .ok [] := by
  simp [readAt, Nat.not_lt.mpr h, hn]

theorem readAt_of_read {offset len : ℕ} (h : offset ≤ s.mediaSize.toNat)
    (hn : min len (s.mediaSize.toNat - offset) ≠ 0) : (s.readAt lib offset len).exec =
      match lib.readRandom s.handle (min len (s.mediaSize.toNat - offset)) (asI64 offset) with
      | none       => .err <| .malformed s.identity.path "ewf" "read failed"
      | some bytes => .ok bytes := by
  simp only [readAt, if_neg (Nat.not_lt.mpr h), if_neg hn, exec_note_bind]
  split <;> rfl

theorem conforming (h : s.Serves lib content) (hl : content.length ≤ 2 ^ 63) :
    (s.toSource lib).Conforming content where
  size_eq := h.mediaSize
  size_lt := h.mediaSize ▸ s.mediaSize.toNat_lt
  outOfRange len ho := by
    rw [← h.mediaSize] at ho ⊢
    exact readAt_outOfRange len ho
  inRange := by
    intro offset len ho
    rw [← h.mediaSize] at ho ⊢
    by_cases hn : min len (s.mediaSize.toNat - offset) = 0
    case pos => exact ⟨0, by rw [subslice_len_zero]; exact readAt_nothing ho hn, by omega, by omega⟩
    case neg =>
      have hm := h.mediaSize
      have hi : asI64 offset = offset := if_pos (by omega)
      obtain ⟨k, h₀, hk, hr⟩ := h.read (Nat.pos_of_ne_zero hn) (show offset + _ ≤ content.length by omega)
      refine ⟨k, ?_, hk, fun _ => h₀⟩
      change (s.readAt lib offset len).exec = _
      rw [readAt_of_read ho hn, hi, hr]

-- The position of a byte behind the first 2⁶³ of them is taken for a negative one.
theorem conforms_iff_signed (h : s.Serves lib content) :
    (s.toSource lib).Conforming content ↔ content.length ≤ 2 ^ 63 := by
  constructor
  case mpr => exact conforming h
  case mp =>
    intro hc
    by_contra hl
    have hm := h.mediaSize
    have ⟨n, hr, _⟩ := hc.inRange 1 (show 2 ^ 63 ≤ content.length by omega)
    have hn : min 1 (s.mediaSize.toNat - 2 ^ 63) ≠ 0 := by omega
    have hr : (s.readAt lib (2 ^ 63) 1).exec = _ := hr
    rw [readAt_of_read (by omega) hn, h.negative _ (by decide)] at hr
    cases hr

-- A library that serves one media, whatever else it is asked.
def libraryOf (content : Bytes) : Libewf where
  glob _                := some (0, 1)
  handleInitialize      := some 0
  handleOpen _ _ _      := true
  getMediaSize _        := some (.ofNat content.length)
  getHashValueSize _ _  := none
  getHashValue _ _ _    := none
  readRandom _ n offset := if offset < 0 then none else some (subslice content offset.toNat n)

def imageOf (content : Bytes) : EwfSource where
  handle    := 0
  identity  := { path := "a", format := .ewf }
  mediaSize := .ofNat content.length
  md5       := none
  sha1      := none

theorem imageOf_serves (h : content.length < 2 ^ 64) : (imageOf content).Serves (libraryOf content) content where
  mediaSize := UInt64.toNat_ofNat_of_lt' h
  read {offset n} h₀ _ := by
    refine ⟨n, h₀, Nat.le_refl n, ?_⟩
    exact if_neg (t := none) (Int.not_lt.mpr (Int.natCast_nonneg offset))
  negative _ h := if_pos h

theorem conforms_iff_signed_zeros :
    ((imageOf (Bytes.zeros (2 ^ 63))).toSource (libraryOf (Bytes.zeros (2 ^ 63)))).Conforming
      (Bytes.zeros (2 ^ 63)) ∧
    ¬((imageOf (Bytes.zeros (2 ^ 63 + 1))).toSource (libraryOf (Bytes.zeros (2 ^ 63 + 1)))).Conforming
      (Bytes.zeros (2 ^ 63 + 1)) := by
  refine ⟨(conforms_iff_signed (imageOf_serves ?_)).mpr ?_, fun h => ?_⟩
  · rw [Bytes.length_zeros]; decide
  · exact Nat.le_of_eq Bytes.length_zeros
  · have hl := (conforms_iff_signed (imageOf_serves (by rw [Bytes.length_zeros]; decide))).mp h
    rw [Bytes.length_zeros] at hl
    omega

end EwfSource
end Latent
