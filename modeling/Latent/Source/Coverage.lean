import Latent.Source.Ewf
import Latent.Source.Integrity

open Rust

namespace Latent

namespace Source

variable [OverflowChecks] {src : Source} {fuel pos : ℕ} {bytes fed : Bytes}

-- Whenever there is a digest, as many bytes were hashed as the source declares to hold.
def CoversWhole [Sha256] (src : Source) : Prop :=
  ∀ fuel h, hashSource src fuel = some (.ok h) →
    ∃ fed, hashedBytes src fuel = some (.ok fed) ∧ fed.length = src.size

-- In front of the size a read returns something, if it does not fail, and what it returns ends there at the
-- latest.
structure Lasts (src : Source) : Prop where
  size_lt  : src.size < 2 ^ 64
  inside   : ∀ {pos bytes}, pos ≤ src.size → src.readAt pos (64 * 1024) = .ok bytes →
    pos + bytes.length ≤ src.size
  nonempty : ∀ {pos}, pos < src.size → src.readAt pos (64 * 1024) ≠ .ok []

-- The source has this many bytes to give, in pieces of any length, and nothing after them.
structure RunsDryAt (src : Source) (held : ℕ) : Prop where
  held_lt : held < 2 ^ 64
  inside  : ∀ {pos}, pos < held → ∃ bytes, src.readAt pos (64 * 1024) = .ok bytes ∧ 0 < bytes.length ∧
    bytes.length ≤ 64 * 1024 ∧ pos + bytes.length ≤ held
  dry     : src.readAt held (64 * 1024) = .ok []

theorem sourceReader_read_eq_ok {len pos' : ℕ} (h : (sourceReader src).read len pos = .ok (bytes, pos')) :
    src.readAt pos len = .ok bytes ∧ U64.add pos bytes.length = (.ok pos' : Exec SourceError ℕ) := by
  obtain ⟨_, hr, h⟩ := Exec.bind_eq_ok.mp h
  obtain ⟨_, ha, h⟩ := Exec.bind_eq_ok.mp h
  cases h
  exact ⟨hr, ha⟩

theorem lt_of_steps {len pos' : ℕ} (h : (sourceReader src).Steps len pos fed pos') (hp : pos < 2 ^ 64) :
    pos' < 2 ^ 64 := by
  induction h with
  | refl => exact hp
  | step hr _ _ _ hi =>
    have ⟨_, ha⟩ := sourceReader_read_eq_ok hr
    exact hi (U64.eq_mod_of_add ha ▸ Nat.mod_lt _ (by decide))

theorem ends_iff (hp : pos < 2 ^ 64) :
    (sourceReader src).Ends (64 * 1024) pos ↔ src.readAt pos (64 * 1024) = .ok [] := by
  constructor
  case mp =>
    intro ⟨_, h⟩
    exact (sourceReader_read_eq_ok h).1
  case mpr => exact fun h => ⟨_, sourceReader_read h hp⟩

theorem hashedBytes_eq_ok_iff : (∃ fuel, hashedBytes src fuel = some (.ok fed)) ↔
    ∃ pos, (sourceReader src).Steps (64 * 1024) 0 fed pos ∧ src.readAt pos (64 * 1024) = .ok [] := by
  constructor
  case mp =>
    intro ⟨fuel, h⟩
    obtain ⟨x, hx, h⟩ := Option.map_eq_some_iff.mp h
    cases x with
    | ok bytes =>
      cases h
      have ⟨pos, hs, he⟩ := steps_of_fedBytes hx
      exact ⟨pos, hs, (ends_iff (lt_of_steps hs (by decide))).mp he⟩
    | err _ => cases h
    | panic => cases h
  case mpr =>
    intro ⟨pos, hs, he⟩
    have he := (ends_iff (lt_of_steps hs (by decide))).mpr he
    exact ⟨fed.length + 1, by rw [hashedBytes, fedBytes_of_steps hs he (Nat.lt_succ_self _)]; rfl⟩

-- The reads stop where one of them returns nothing, and then as much was hashed as they returned.
theorem coversWhole_iff_steps [Sha256] : src.CoversWhole ↔
    ∀ fed pos, (sourceReader src).Steps (64 * 1024) 0 fed pos → src.readAt pos (64 * 1024) = .ok [] →
      fed.length = src.size := by
  constructor
  case mp =>
    intro h fed pos hs he
    have ⟨fuel, hf⟩ := hashedBytes_eq_ok_iff.mpr ⟨pos, hs, he⟩
    have ⟨fed', hf', hl⟩ := h fuel (hexDigest fed) (by rw [hashSource_eq, hf]; rfl)
    cases hf.symm.trans hf'
    exact hl
  case mpr =>
    intro h fuel digest hd
    rw [hashSource_eq] at hd
    obtain ⟨x, hx, hd⟩ := Option.map_eq_some_iff.mp hd
    cases x with
    | ok fed =>
      have ⟨pos, hs, he⟩ := hashedBytes_eq_ok_iff.mp ⟨fuel, hx⟩
      exact ⟨fed, hx, h fed pos hs he⟩
    | err _ => cases hd
    | panic => cases hd

-- Reads that begin in front of a place which none of them goes past move on by what they return.
theorem steps_inside {held pos' : ℕ} (hlt : held < 2 ^ 64)
    (hin : ∀ {pos bytes}, pos ≤ held → src.readAt pos (64 * 1024) = .ok bytes → pos + bytes.length ≤ held)
    (h : (sourceReader src).Steps (64 * 1024) pos fed pos') (hp : pos ≤ held) :
    pos + fed.length = pos' ∧ pos' ≤ held := by
  induction h with
  | refl => exact ⟨rfl, hp⟩
  | step hr _ _ _ hi =>
    have ⟨hr, ha⟩ := sourceReader_read_eq_ok hr
    have hle := hin hp hr
    have he := U64.eq_mod_of_add ha
    rw [Nat.mod_eq_of_lt (by omega)] at he
    have ⟨hl, hle⟩ := hi (by omega)
    rw [List.length_append]
    exact ⟨by omega, hle⟩

theorem length_of_steps_inside {held : ℕ} (hlt : held < 2 ^ 64)
    (hin : ∀ {pos bytes}, pos ≤ held → src.readAt pos (64 * 1024) = .ok bytes → pos + bytes.length ≤ held)
    (h : (sourceReader src).Steps (64 * 1024) 0 fed pos) : fed.length = pos ∧ pos ≤ held := by
  have hs := steps_inside hlt hin h (Nat.zero_le _)
  rwa [Nat.zero_add] at hs

-- No digest is one of a part, and none is one of more than there is.
theorem Lasts.coversWhole [Sha256] (h : src.Lasts) : src.CoversWhole := by
  refine coversWhole_iff_steps.mpr fun fed pos hs he => ?_
  have ⟨hl, hle⟩ := length_of_steps_inside h.size_lt h.inside hs
  by_contra hne
  exact h.nonempty (Nat.lt_of_le_of_ne hle (hl ▸ hne)) he

omit [OverflowChecks] in
theorem RunsDryAt.answer_inside {held : ℕ} (h : src.RunsDryAt held) (hp : pos ≤ held)
    (hr : src.readAt pos (64 * 1024) = .ok bytes) : pos + bytes.length ≤ held := by
  by_cases he : pos = held
  case pos =>
    cases (he ▸ hr).symm.trans h.dry
    simp [he]
  case neg =>
    have ⟨bytes', hr', _, _, hle⟩ := h.inside (Nat.lt_of_le_of_ne hp he)
    cases hr.symm.trans hr'
    exact hle

theorem RunsDryAt.exists_steps {held : ℕ} (h : src.RunsDryAt held) (hp : pos ≤ held) :
    ∃ fed, (sourceReader src).Steps (64 * 1024) pos fed held := by
  induction hk : held - pos using Nat.strongRecOn generalizing pos with
  | ind k hi =>
    by_cases he : pos = held
    case pos => exact ⟨[], he ▸ .refl _⟩
    case neg =>
      have ⟨bytes, hr, h₀, hl, hle⟩ := h.inside (Nat.lt_of_le_of_ne hp he)
      have hlt := h.held_lt
      have ⟨fed, hs⟩ := hi _ (by omega) hle rfl
      exact ⟨bytes ++ fed, .step (sourceReader_read hr (by omega)) h₀ hl hs⟩

theorem RunsDryAt.coversWhole_iff [Sha256] {held : ℕ} (h : src.RunsDryAt held) :
    src.CoversWhole ↔ held = src.size := by
  have ⟨fed, hs⟩ := h.exists_steps (Nat.zero_le _)
  have hfed := (length_of_steps_inside h.held_lt h.answer_inside hs).1
  rw [coversWhole_iff_steps, ← hfed]
  constructor
  case mp => exact fun hw => hw fed held hs h.dry
  case mpr =>
    intro hsize fed' pos hs' he
    have ⟨hl, hle⟩ := length_of_steps_inside h.held_lt h.answer_inside hs'
    by_contra hne
    have ⟨_, hr, h₀, _⟩ := h.inside (show pos < held by omega)
    cases he.symm.trans hr
    exact absurd h₀ (Nat.lt_irrefl 0)

-- A source need not last for that: it may have nothing to give where no answer leads to.
example [Sha256] : ∃ src : Source, src.CoversWhole ∧ ¬src.Lasts := by
  let src : Source := {
    size     := 2
    identity := { path := "", format := .raw }
    readAt pos _ := .ok (if pos = 0 then [1, 2] else [])
  }
  refine ⟨src, coversWhole_iff_steps.mpr fun fed pos hs he => ?_, fun h => h.nonempty (Nat.lt_succ_self 1) rfl⟩
  cases hs with
  | refl => cases he
  | step hr _ _ hs =>
    have ⟨hr, ha⟩ := sourceReader_read_eq_ok hr
    cases hr
    cases ha
    cases hs with
    | refl => rfl
    | step hr h₀ =>
      cases (sourceReader_read_eq_ok hr).1
      exact absurd h₀ (Nat.lt_irrefl 0)

omit [OverflowChecks] in
theorem Conforming.lasts {content : Bytes} (h : src.Conforming content) : src.Lasts := by
  constructor
  case size_lt => exact h.size_eq ▸ h.size_lt
  case inside =>
    intro pos bytes hp hr
    rw [h.size_eq] at hp ⊢
    have ⟨n, hr', hn, _⟩ := h.inRange (64 * 1024) hp
    cases hr.symm.trans hr'
    rw [length_subslice_of_le (by omega)]
    omega
  case nonempty =>
    intro pos hp hr
    rw [h.size_eq] at hp
    have ⟨n, hr', hn, h₀⟩ := h.inRange (64 * 1024) (Nat.le_of_lt hp)
    have hl := congrArg List.length (Exec.ok.inj (hr'.symm.trans hr))
    rw [length_subslice_of_le (by omega)] at hl
    have := h₀ (by omega)
    simp at hl
    omega

end Source

-- A file read to its end, where the operating system answers with nothing.
structure File.ReadToEnd (f : File) : Prop where
  size_lt : f.bytes.length < 2 ^ 64
  inside  : ∀ offset len, 0 < len → offset < f.bytes.length →
    ∃ n, 0 < n ∧ n ≤ len ∧ offset + n ≤ f.bytes.length ∧ f.pread offset len = .ok (subslice f.bytes offset n)
  atEnd   : ∀ len, f.pread f.bytes.length len = .ok []

theorem readToEnd_subslice (bytes : Bytes) (h : bytes.length < 2 ^ 64) :
    File.ReadToEnd { bytes, pread := fun offset len => .ok (subslice bytes offset len) } where
  size_lt := h
  inside offset len h₀ ho := by
    have ho : offset < bytes.length := ho
    refine ⟨min len (bytes.length - offset), by omega, by omega, ?_, congrArg Exec.ok subslice_min.symm⟩
    change offset + min len (bytes.length - offset) ≤ bytes.length
    omega
  atEnd _ := by simp [subslice]

namespace RawSource

section

variable [OverflowChecks] {s : RawSource} {f : File}

omit [OverflowChecks] in
theorem readAt_of_readToEnd (hb : s.backing = .positioned f) (hf : f.ReadToEnd) {pos : ℕ}
    (hp : pos < f.bytes.length) (hs : pos < s.size) : ∃ n, 0 < n ∧ n ≤ 64 * 1024 ∧
      pos + n ≤ f.bytes.length ∧ pos + n ≤ s.size ∧
      s.toSource.readAt pos (64 * 1024) = .ok (subslice f.bytes pos n) := by
  have ⟨n, h₀, hn, hfit, hr⟩ := hf.inside pos (min (64 * 1024) (s.size - pos)) (by omega) hp
  refine ⟨n, h₀, by omega, hfit, by omega, ?_⟩
  simp only [toSource, readAt, hb]
  rw [if_neg (by omega), if_neg (by omega), hr, Exec.mapErr_ok]

omit [OverflowChecks] in
theorem runsDryAt (hb : s.backing = .positioned f) (hf : f.ReadToEnd) :
    s.toSource.RunsDryAt (min f.bytes.length s.size) := by
  constructor
  case held_lt => exact Nat.lt_of_le_of_lt (Nat.min_le_left ..) hf.size_lt
  case inside =>
    intro pos hp
    have ⟨n, h₀, hn, hfit, hs, hr⟩ := readAt_of_readToEnd hb hf (show pos < _ by omega) (by omega)
    refine ⟨_, hr, ?_⟩
    rw [length_subslice_of_le hfit]
    omega
  case dry =>
    simp only [toSource, readAt, hb]
    rw [if_neg (by omega)]
    by_cases hs : s.size ≤ f.bytes.length
    case pos => rw [if_pos (by omega)]
    case neg => rw [if_neg (by omega), Nat.min_eq_left (by omega), hf.atEnd, Exec.mapErr_ok]

-- A file is covered as long as it has not become shorter than it was when its size was taken.
theorem coversWhole_iff [Sha256] (hb : s.backing = .positioned f) (hf : f.ReadToEnd) :
    s.toSource.CoversWhole ↔ s.size ≤ f.bytes.length := by
  have hm : min f.bytes.length s.size = s.size ↔ s.size ≤ f.bytes.length := by omega
  exact (runsDryAt hb hf).coversWhole_iff.trans hm

-- If it has, it gets the digest of what is left of it.
theorem hashSource_truncated [Sha256] (hb : s.backing = .positioned f) (hf : f.ReadToEnd)
    (hs : f.bytes.length < s.size) : ∃ fuel, hashSource s.toSource fuel = some (.ok (hexDigest f.bytes)) := by
  have hsteps : (sourceReader s.toSource).Steps (64 * 1024) 0 (f.bytes.drop 0) f.bytes.length := by
    refine sourceReader_steps hf.size_lt (fun {pos} hp => ?_) (Nat.zero_le _)
    have ⟨n, h₀, hn, hfit, _, hr⟩ := readAt_of_readToEnd hb hf hp (by omega)
    exact ⟨n, h₀, hn, hfit, hr⟩
  have hdry := (runsDryAt hb hf).dry
  rw [Nat.min_eq_left (Nat.le_of_lt hs)] at hdry
  have ⟨fuel, hfed⟩ := Source.hashedBytes_eq_ok_iff.mpr ⟨_, hsteps, hdry⟩
  exact ⟨fuel, by rw [hashSource_eq, hfed]; rfl⟩

end

attribute [local instance] Sha256.standard OverflowChecks.on

-- A file of four bytes that lost the last two of them after it was opened.
def truncated : RawSource where
  backing  := .positioned {
    bytes := [1, 2], pread := fun offset len => .ok (subslice [1, 2] offset len) }
  size     := 4
  identity := { path := "disk.img", format := .raw }

end RawSource

namespace EwfSource

variable [OverflowChecks] {s : EwfSource} {lib : Libewf} {held : ℕ}

-- The library returns some of the media up to a place in it, and nothing there.
structure RunsDryAt (s : EwfSource) (lib : Libewf) (held : ℕ) : Prop where
  held_le : held ≤ s.mediaSize.toNat
  held_lt : held < 2 ^ 63
  inside  : ∀ (offset n : ℕ), 0 < n → offset < held →
    ∃ bytes, lib.readRandom s.handle n offset = some bytes ∧ 0 < bytes.length ∧ bytes.length ≤ n ∧
      offset + bytes.length ≤ held
  dry     : ∀ n, lib.readRandom s.handle n held = some []

omit [OverflowChecks] in
theorem RunsDryAt.toSource (h : s.RunsDryAt lib held) : (s.toSource lib).RunsDryAt held := by
  have hle := h.held_le
  have hlt := h.held_lt
  constructor
  case held_lt => exact Nat.lt_trans hlt (by decide)
  case inside =>
    intro pos hp
    have hi : asI64 pos = pos := if_pos (by omega)
    have ⟨bytes, hr, h₀, hn, hin⟩ :=
      h.inside pos (min (64 * 1024) (s.mediaSize.toNat - pos)) (by omega) hp
    refine ⟨bytes, ?_, h₀, by omega, hin⟩
    change (s.readAt lib pos (64 * 1024)).exec = _
    rw [readAt_of_read (by omega) (by omega), hi, hr]
  case dry =>
    have hi : asI64 held = held := if_pos hlt
    change (s.readAt lib held (64 * 1024)).exec = _
    by_cases hn : min (64 * 1024) (s.mediaSize.toNat - held) = 0
    case pos => exact readAt_nothing hle hn
    case neg => rw [readAt_of_read hle hn, hi, h.dry]

-- An image is covered if the library does not stop before the size it has told.
theorem coversWhole_iff [Sha256] (h : s.RunsDryAt lib held) :
    (s.toSource lib).CoversWhole ↔ held = s.mediaSize.toNat :=
  h.toSource.coversWhole_iff

end EwfSource
end Latent
