import Latent.Core.Sha256
import Latent.Source.Raw
import Latent.Text.Lines

open Rust

namespace Latent

def SourceError.display : SourceError → String
  | outOfRange offset size         => s!"read at offset {offset} runs past the source end ({size} bytes)"
  | shortRead offset wanted got    => s!"short read at offset {offset}: wanted {wanted}, got {got}"
  | unrecognized path              => s!"{path}: not a source format we recognise"
  | notReadOnly path               => s!"{path}: opened handle is not read-only"
  | malformed path format detail   => s!"{path}: malformed {format} image: {detail}"
  | unsupported path format detail => s!"{path}: {format} image is not supported: {detail}"
  | io path source                 => s!"{path}: {source}"

inductive IntegrityError
  | expectedMismatch (expected computed : List Char)
  | sourceChanged (opened closed : List Char)
  | source (e : SourceError)
  deriving DecidableEq, Repr

section

variable [OverflowChecks]

-- The source as a reader, with the position as its state. No position is read twice before the end,
-- so how short a read is may depend on anything that happens during one pass.
def sourceReader (src : Source) : Reader ℕ SourceError UInt8 where
  read len pos := do
    let bytes ← src.readAt pos len
    let pos ← U64.add pos bytes.length
    .ok (bytes, pos)

def sourceIo {α : Type} (src : Source) : Exec SourceError α → Exec SourceError α :=
  Exec.mapErr fun e => .io src.identity.path e.display

def hashSource [Sha256] (src : Source) (fuel : ℕ) : Option (Exec SourceError (List Char)) :=
  (sha256ReaderOf (sourceReader src) fuel 0).map (sourceIo src)

-- The bytes that `hashSource` feeds to the hash.
def hashedBytes (src : Source) (fuel : ℕ) : Option (Exec SourceError Bytes) :=
  (fedBytes (sourceReader src) fuel 0).map (sourceIo src)

variable {src : Source} {fuel pos : ℕ}

-- The hash is that of the bytes which are fed to it, in the order in which they are.
theorem hashSource_eq [Sha256] : hashSource src fuel =
    (hashedBytes src fuel).map (hexDigest <$> ·) := by
  rw [hashSource, sha256ReaderOf_eq, hashedBytes, Option.map_map, Option.map_map]
  congr 1
  funext x
  cases x <;> rfl

theorem sourceReader_read {len : ℕ} {bytes : Bytes} (h : src.readAt pos len = .ok bytes)
    (hlt : pos + bytes.length < 2 ^ 64) :
    (sourceReader src).read len pos = .ok (bytes, pos + bytes.length) := by
  simp only [sourceReader, h, Exec.ok_bind, U64.add_eq hlt]

-- However short the reads are, they go through the rest of the content in order.
theorem sourceReader_steps {content : Bytes} (hlt : content.length < 2 ^ 64)
    (hr : ∀ {pos}, pos < content.length → ∃ n, 0 < n ∧ n ≤ 64 * 1024 ∧ pos + n ≤ content.length ∧
      src.readAt pos (64 * 1024) = .ok (subslice content pos n)) (h : pos ≤ content.length) :
    (sourceReader src).Steps (64 * 1024) pos (content.drop pos) content.length := by
  induction hk : content.length - pos using Nat.strongRecOn generalizing pos with
  | ind k hi =>
    by_cases he : pos = content.length
    case pos =>
      rw [he, List.drop_length]
      exact .refl _
    case neg =>
      have ⟨n, h₀, hn, hfit, hr⟩ := hr (Nat.lt_of_le_of_ne h he)
      have hl : (subslice content pos n).length = n := length_subslice_of_le hfit
      have hread := sourceReader_read hr (by omega)
      have hs := Reader.Steps.step hread (by omega) (by omega) (hi _ (by omega) (by omega) rfl)
      rwa [hl, subslice, ← List.drop_drop, List.take_append_drop] at hs

end

namespace Source.Conforming

variable [OverflowChecks] {src : Source} {content : Bytes} {fuel : ℕ}

theorem ends (hc : src.Conforming content) : (sourceReader src).Ends (64 * 1024) content.length := by
  have ⟨n, hr, hn, _⟩ := hc.inRange (64 * 1024) (Nat.le_refl _)
  have h₀ : n = 0 := by omega
  rw [h₀, subslice_len_zero] at hr
  exact ⟨_, sourceReader_read hr (Nat.lt_of_le_of_lt (Nat.le_refl _) hc.size_lt)⟩

theorem steps (hc : src.Conforming content) {pos : ℕ} (h : pos ≤ content.length) :
    (sourceReader src).Steps (64 * 1024) pos (content.drop pos) content.length := by
  refine sourceReader_steps hc.size_lt (fun {pos} hlt => ?_) h
  have ⟨n, hr, hn, hp⟩ := hc.inRange (64 * 1024) (Nat.le_of_lt hlt)
  exact ⟨n, hp (by omega), by omega, by omega, hr⟩

theorem hashedBytes_eq (hc : src.Conforming content) (hf : content.length < fuel) :
    hashedBytes src fuel = some (.ok content) := by
  rw [hashedBytes, fedBytes_of_steps (hc.steps (Nat.zero_le _)) hc.ends (by simpa using hf)]
  rfl

theorem hashSource_eq [Sha256] (hc : src.Conforming content) (hf : content.length < fuel) :
    hashSource src fuel = some (.ok (hexDigest content)) := by
  rw [Latent.hashSource_eq, hc.hashedBytes_eq hf]
  rfl

end Source.Conforming

structure VerifiedSource where
  source   : Source
  openHash : List Char

namespace VerifiedSource

-- The box may behave differently when it is read again at the end of the session.
def turned (v : VerifiedSource) (now : Source) : VerifiedSource :=
  { v with source := now }

section

variable [Sha256] [OverflowChecks]

def normalized (want : List Char) : List Char :=
  (Text.trim want).map Text.toAsciiLowercase

def wrap (source : Source) (expected : Option (List Char)) (fuel : ℕ) :
    Option (Exec IntegrityError VerifiedSource) :=
  (hashSource source fuel).map fun openHash => do
    let openHash ← openHash.mapErr .source
    match expected with
    | none      => .ok { source, openHash }
    | some want =>
      if normalized want ≠ openHash then
        .err <| .expectedMismatch (normalized want) openHash
      else
        .ok { source, openHash }

def finish (v : VerifiedSource) (fuel : ℕ) : Option (Exec IntegrityError (List Char)) :=
  (hashSource v.source fuel).map fun closeHash => do
    let closeHash ← closeHash.mapErr .source
    if closeHash ≠ v.openHash then
      .err <| .sourceChanged v.openHash closeHash
    else
      .ok closeHash

variable {opened closed : Source} {O C : Bytes} {expected : Option (List Char)} {fuel : ℕ}

theorem wrap_eq (ho : opened.Conforming O) (hf : O.length < fuel) :
    wrap opened expected fuel = some (
      match expected with
      | none      => .ok { source := opened, openHash := hexDigest O }
      | some want =>
        if normalized want = hexDigest O then
          .ok { source := opened, openHash := hexDigest O }
        else
          .err <| .expectedMismatch (normalized want) (hexDigest O)) := by
  rw [wrap, ho.hashSource_eq hf]
  cases expected with
  | none      => rfl
  | some want => simp only [Option.map_some, Exec.mapErr_ok, Exec.ok_bind, ite_not]

theorem finish_eq {v : VerifiedSource} (hc : v.source.Conforming C) (hf : C.length < fuel) :
    v.finish fuel = some (
      if hexDigest C = v.openHash then .ok (hexDigest C)
      else .err <| .sourceChanged v.openHash (hexDigest C)) := by
  rw [finish, hc.hashSource_eq hf]
  simp only [Option.map_some, Exec.mapErr_ok, Exec.ok_bind, ite_not]

theorem wrap_eq_ok_iff (ho : opened.Conforming O) (hf : O.length < fuel) {v : VerifiedSource} :
    wrap opened expected fuel = some (.ok v) ↔
      (∀ want ∈ expected, normalized want = hexDigest O) ∧ v = { source := opened, openHash := hexDigest O } := by
  rw [wrap_eq ho hf]
  cases expected with
  | none => simp [eq_comm]
  | some want =>
    by_cases hw : normalized want = hexDigest O
    case pos => simp [hw, eq_comm]
    case neg => simp [hw]

-- A whole session: the source behaves like `opened` when it is hashed first and like `closed` when it
-- is hashed again.
theorem session (ho : opened.Conforming O) (hc : closed.Conforming C) :
    (∀ fuel, O.length < fuel → hashSource opened fuel = some (.ok (hexDigest O))) ∧
    ∀ expected fuel, O.length < fuel →
      ((∃ v, wrap opened expected fuel = some (.ok v)) ↔
        ∀ want ∈ expected, (Text.trim want).map Text.toAsciiLowercase = hexDigest O) ∧
      (∀ want ∈ expected, (Text.trim want).map Text.toAsciiLowercase ≠ hexDigest O →
        wrap opened expected fuel =
          some (.err (.expectedMismatch ((Text.trim want).map Text.toAsciiLowercase) (hexDigest O)))) ∧
      ∀ v, wrap opened expected fuel = some (.ok v) → v.source = opened ∧ v.openHash = hexDigest O ∧
        ∀ fuel, C.length < fuel → (v.turned closed).finish fuel = some (
          if hexDigest C = hexDigest O then .ok (hexDigest C)
          else .err (.sourceChanged (hexDigest O) (hexDigest C))) := by
  refine ⟨fun _ hf => ho.hashSource_eq hf, fun expected fuel hf => ⟨?accepted, ?mismatch, ?finished⟩⟩
  case accepted => simp [wrap_eq_ok_iff ho hf, normalized]
  case mismatch =>
    intro want hw hn
    rw [Option.mem_def.mp hw, wrap_eq ho hf]
    exact congrArg some (if_neg hn)
  case finished =>
    intro v hv
    have ⟨_, he⟩ := (wrap_eq_ok_iff ho hf).mp hv
    refine ⟨congrArg source he, congrArg openHash he, fun fuel hf => ?_⟩
    rw [he]
    exact finish_eq hc hf

end

attribute [local instance] Sha256.standard OverflowChecks.on

-- A file that gives out one byte at a time.
def trickling (bytes : Bytes) : Source :=
  let file := { bytes, pread := fun offset _ => .ok (subslice bytes offset 1) }
  (RawSource.openPositioned "" file).toSource

theorem trickling_conforming {bytes : Bytes} (h : bytes.length < 2 ^ 64) :
    (trickling bytes).Conforming bytes :=
  RawSource.open_conforming {
    size_lt := h
    pread   := fun _ _ h₀ _ => ⟨1, Nat.one_pos, h₀, rfl⟩
  }

-- The hash of the bytes 97, 98 and 99, as somebody may have copied it.
def pasted : List Char :=
  "\tBA7816BF8F01CFEA414140DE5DAE2223B00361A396177A9CB410FF61F20015AD \n".toList

theorem session_trickling : ∃ v, wrap (trickling [97, 98, 99]) (some pasted) 4 = some (.ok v) ∧
    (v.turned (rawSource [97, 98, 99])).finish 4 = some (.ok (hexDigest [97, 98, 99])) := by
  have ho : (trickling [97, 98, 99]).Conforming [97, 98, 99] := trickling_conforming (by decide)
  have hc : (rawSource [97, 98, 99]).Conforming [97, 98, 99] := rawSource_conforming (by decide)
  have hp : (Text.trim pasted).map Text.toAsciiLowercase = hexDigest [97, 98, 99] := by decide +kernel
  have ⟨hw, _, hv⟩ := (session ho hc).2 (some pasted) 4 (by decide)
  have ⟨v, h⟩ := hw.mpr fun want hwant => Option.mem_some.mp hwant ▸ hp
  have ⟨_, _, hf⟩ := hv v h
  exact ⟨v, h, by rw [hf 4 (by decide), if_pos rfl]⟩

end VerifiedSource
end Latent
