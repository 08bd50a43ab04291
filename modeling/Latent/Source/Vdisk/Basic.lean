import Latent.Rust.Refine
import Latent.Source.Basic

open Rust

namespace Latent

namespace Vdisk

section

variable [OverflowChecks] {α : Type}

-- The integer readers of a virtual disk's header and tables: `width` bytes, decoded in place.
def readField (decode : Bytes → α) (width : ℕ) (src : Source) (offset : ℕ) : Exec SourceError α := do
  let b ← src.readExactAt offset width
  .ok (decode b)

def beU32 : Source → ℕ → Exec SourceError UInt32 :=
  readField (fun b => .ofNat (Bytes.fromBE b)) 4

def beU64 : Source → ℕ → Exec SourceError UInt64 :=
  readField (fun b => .ofNat (Bytes.fromBE b)) 8

def leU16 : Source → ℕ → Exec SourceError UInt16 :=
  readField (fun b => .ofNat (Bytes.fromLE b)) 2

def leU32 : Source → ℕ → Exec SourceError UInt32 :=
  readField (fun b => .ofNat (Bytes.fromLE b)) 4

def leU64 : Source → ℕ → Exec SourceError UInt64 :=
  readField (fun b => .ofNat (Bytes.fromLE b)) 8

-- `match self.locate(..)? { .. }`: a located span is read from the container, a hole is zeroed.
def fillSpan (inner : Source) (hostAt : ℕ → ℕ → Exec SourceError ℕ) (within take : ℕ) :
    Option ℕ → Exec SourceError Bytes
  | some host => do inner.readExactAt (← hostAt host within) take
  | none      => .ok (List.replicate take 0)

-- The read loop of the three virtual disks. They differ in their unit of allocation (a cluster, a
-- grain or a block), in how a unit is located and in how the host address is summed.
def readSpans (inner : Source) (virtualSize unit : ℕ)
    (locate : ℕ → Exec SourceError (Option ℕ)) (hostAt : ℕ → ℕ → Exec SourceError ℕ)
    (offset len : ℕ) : Exec SourceError Bytes :=
  if virtualSize < offset then
    .err <| .outOfRange offset virtualSize
  else
    let n := min len (virtualSize - offset)
    go n n 0
where
  -- The fuel bounds the number of spans. It does not run out when it starts at `n`, as every span
  -- holds at least one byte.
  go (n : ℕ) : (fuel done : ℕ) → Exec SourceError Bytes
    | 0, done        => if done < n then .panic else .ok []
    | fuel + 1, done =>
      if done < n then do
        let addr ← U64.add offset done
        let within ← U64.rem addr unit
        let left ← U64.sub unit within
        let take := min left (n - done)
        let index ← U64.div addr unit
        let dst ← fillSpan inner hostAt within take (← locate index)
        let rest ← go n fuel (done + take)
        .ok (dst ++ rest)
      else
        .ok []

end

-- The field at an exact address, where all of it lies inside the container.
def field {α : Type} (decode : Bytes → α) (width : ℕ) (content : Bytes) (offset : ℕ) : Option α :=
  (getRange content offset width).map decode

def beU64? : Bytes → ℕ → Option UInt64 :=
  field (fun b => .ofNat (Bytes.fromBE b)) 8

def leU32? : Bytes → ℕ → Option UInt32 :=
  field (fun b => .ofNat (Bytes.fromLE b)) 4

def leU64? : Bytes → ℕ → Option UInt64 :=
  field (fun b => .ofNat (Bytes.fromLE b)) 8

-- What a lookup of the guest byte at `x` finds, once the unit that holds it is located: nothing
-- there reads as zero, and a host byte past the container's end cannot be read.
def walkUnit (content : Bytes) (unit : ℕ) (located : ℕ → Option (Option ℕ)) (x : ℕ) : Option UInt8 :=
  (located (x / unit)).bind fun
    | none      => some 0
    | some host => content[host + x % unit]?

section

variable [OverflowChecks] {α : Type} {inner : Source} {content : Bytes}

theorem readExactAt_refines (hc : inner.Conforming content) {width : ℕ} (hw : 0 < width)
    (offset : ℕ) :
    (inner.readExactAt offset width).Refines (getRange content offset width) := by
  rcases hc.readExactAt_cases offset hw with ⟨hle, hr⟩ | ⟨hlt, hr⟩
  · rw [getRange_eq hle]
    exact hr
  · rw [getRange, if_neg (by omega)]
    exact hr

-- A saturated address lies past the end of every source, as the exact one does.
theorem readExactAt_saturatingAdd_refines (hc : inner.Conforming content) {width : ℕ}
    (hw : 0 < width) (a b : ℕ) :
    (inner.readExactAt (U64.saturatingAdd a b) width).Refines (getRange content (a + b) width) := by
  have := hc.size_lt
  by_cases h : a + b + width ≤ content.length
  case pos =>
    have hs : U64.saturatingAdd a b = a + b := by simp only [U64.saturatingAdd]; omega
    rw [hs]
    exact readExactAt_refines hc hw _
  case neg =>
    rw [getRange, if_neg h]
    apply hc.readExactAt_err hw
    simp only [U64.saturatingAdd]
    omega

theorem readField_refines (hc : inner.Conforming content) (decode : Bytes → α) {width : ℕ}
    (hw : 0 < width) (offset : ℕ) :
    (readField decode width inner offset).Refines (field decode width content offset) :=
  (readExactAt_refines hc hw offset).map

theorem readField_saturatingAdd_refines (hc : inner.Conforming content) {width : ℕ}
    (hw : 0 < width) (decode : Bytes → α) (a b : ℕ) :
    (readField decode width inner (U64.saturatingAdd a b)).Refines
      (field decode width content (a + b)) :=
  (readExactAt_saturatingAdd_refines hc hw a b).map

theorem readField_saturating_refines (hc : inner.Conforming content) {width : ℕ}
    (hw : 0 < width) (decode : Bytes → α) (a b c : ℕ) :
    (readField decode width inner (U64.saturatingAdd (U64.saturatingMul a b) c)).Refines
      (field decode width content (a * b + c)) := by
  have := hc.size_lt
  by_cases h : a * b < 2 ^ 64
  case pos =>
    have hs : U64.saturatingMul a b = a * b := by simp only [U64.saturatingMul]; omega
    rw [hs]
    exact readField_saturatingAdd_refines hc hw decode _ _
  case neg =>
    have hn : field decode width content (a * b + c) = none := by
      rw [field, getRange, if_neg (by omega), Option.map_none]
    obtain ⟨e, he⟩ : ∃ e, inner.readExactAt (U64.saturatingAdd (U64.saturatingMul a b) c) width = .err e :=
      hc.readExactAt_err hw (by simp only [U64.saturatingAdd, U64.saturatingMul]; omega)
    rw [hn]
    exact ⟨e, by rw [readField, he, Exec.err_bind]⟩

end

section

variable [OverflowChecks] {inner : Source} {content : Bytes} {virtualSize unit offset len : ℕ}
  {locate : ℕ → Exec SourceError (Option ℕ)} {located : ℕ → Option (Option ℕ)}
  {hostAt : ℕ → ℕ → Exec SourceError ℕ}

omit [OverflowChecks] in
theorem div_mod_add {x i : ℕ} (h : x % unit + i < unit) :
    (x + i) / unit = x / unit ∧ (x + i) % unit = x % unit + i := by
  have hm : (x + i) % unit = x % unit + i := by
    rw [← Nat.mod_add_mod, Nat.mod_eq_of_lt h]
  have h₀ : 0 < unit := by omega
  have hq : unit * ((x + i) / unit) = unit * (x / unit) := by
    have hx := Nat.div_add_mod x unit
    have hi := Nat.div_add_mod (x + i) unit
    omega
  exact ⟨Nat.eq_of_mul_eq_mul_left h₀ hq, hm⟩

omit [OverflowChecks] in
-- A span ends with the read or with its unit.
theorem span_end {x left : ℕ} (h : 0 < unit) :
    min (unit - x % unit) left = left ∨ (x + min (unit - x % unit) left) % unit = 0 := by
  have hm := Nat.mod_lt x h
  rcases Nat.le_total left (unit - x % unit) with hl | hl
  · exact .inl (Nat.min_eq_right hl)
  · right
    have he : x % unit + (unit - x % unit) = unit := by omega
    rw [Nat.min_eq_left hl, ← Nat.mod_add_mod, he, Nat.mod_self]

omit [OverflowChecks] in
-- All bytes of a span lie in one unit, so one lookup answers for them all.
theorem mapM_walkUnit {x take : ℕ} (h₀ : 0 < take) (h : x % unit + take ≤ unit) :
    (List.range' x take).mapM (walkUnit content unit located) =
      (located (x / unit)).bind fun
        | none      => some (List.replicate take 0)
        | some host => getRange content (host + x % unit) take := by
  have hunit : ∀ i, i < take → (x + i) / unit = x / unit ∧ (x + i) % unit = x % unit + i :=
    fun i hi => div_mod_add (by omega)
  cases hl : located (x / unit) with
  | none =>
    refine mapM_range'_eq_none h₀ ?_
    simp [walkUnit, hl]
  | some host? =>
    cases host? with
    | none =>
      refine mapM_range'_eq_some_iff.mpr ⟨by simp, fun i hi => ?_⟩
      simp [walkUnit, hunit i hi, hl, hi]
    | some host =>
      refine mapM_range'_getElem? _ _ (fun i hi => ?_) h₀
      simp [walkUnit, hunit i hi, hl, Nat.add_assoc]

-- What the loop needs of the host address of a span: summing it does not overflow, or does so only
-- in a way that a read there cannot tell from the exact address.
def HostAtExact (inner : Source) (content : Bytes) (unit : ℕ) (located : ℕ → Option (Option ℕ))
    (hostAt : ℕ → ℕ → Exec SourceError ℕ) (x : ℕ) : Prop :=
  ∀ host, located (x / unit) = some (some host) → ∃ addr, hostAt host (x % unit) = .ok addr ∧
    ∀ take, 0 < take →
      (inner.readExactAt addr take).Refines (getRange content (host + x % unit) take)

theorem readSpans_go_refines (hunit : 0 < unit) {n : ℕ} (hn : offset + n < 2 ^ 64)
    (hl : ∀ x, x < 2 ^ 64 → (locate (x / unit)).Refines (located (x / unit)))
    (hh : ∀ x, offset ≤ x → x < offset + n → (x = offset ∨ x % unit = 0) →
      HostAtExact inner content unit located hostAt x)
    {fuel done : ℕ} (hf : n ≤ done + fuel) (hd : done ≤ n)
    (hs : done = 0 ∨ done = n ∨ (offset + done) % unit = 0) :
    (readSpans.go inner unit locate hostAt offset n fuel done).Refines
      ((List.range' (offset + done) (n - done)).mapM (walkUnit content unit located)) := by
  induction fuel generalizing done with
  | zero =>
    have : n - done = 0 := by omega
    simp [readSpans.go, this, show ¬done < n by omega]
  | succ fuel hi =>
    by_cases hlt : done < n
    case neg =>
      have : n - done = 0 := by omega
      simp [readSpans.go, this, hlt]
    case pos =>
      have hm := Nat.mod_lt (offset + done) hunit
      have hadd : offset + done < 2 ^ 64 := by omega
      let take := min (unit - (offset + done) % unit) (n - done)
      have h₀ : 0 < take := by omega
      have hle : (offset + done) % unit + take ≤ unit := by omega
      have hsplit : n - done = take + (n - (done + take)) := by omega
      rw [hsplit, mapM_range'_append, Nat.add_assoc]
      simp only [readSpans.go, if_pos hlt, U64.add_eq hadd, U64.rem_eq hunit, U64.div_eq hunit,
        U64.sub_eq (Nat.le_of_lt hm), Exec.ok_bind]
      rw [← bind_assoc]
      refine .bind ?_ fun dst _ => .map <| hi (by omega) (by omega) ?_
      · rw [mapM_walkUnit h₀ hle]
        refine .bind (hl _ hadd) fun host? ho => ?_
        cases host? with
        | none => exact Exec.ok_refines _
        | some host =>
          have ⟨addr, ha, hr⟩ := hh (offset + done) (by omega) (by omega) (by omega) host ho
          simp only [fillSpan, ha, Exec.ok_bind]
          exact hr take h₀
      · rw [← Nat.add_assoc]
        rcases @span_end unit (offset + done) (n - done) hunit with he | he
        · exact .inr (.inl (by omega))
        · exact .inr (.inr he)

-- The read loop serves each byte as its own lookup does, and fails exactly when one of them does.
theorem readSpans_refines (hunit : 0 < unit) (hv : virtualSize < 2 ^ 64)
    (ho : offset ≤ virtualSize)
    (hl : ∀ x, x < 2 ^ 64 → (locate (x / unit)).Refines (located (x / unit)))
    (hh : ∀ x, offset ≤ x → x < offset + min len (virtualSize - offset) →
      (x = offset ∨ x % unit = 0) → HostAtExact inner content unit located hostAt x) :
    (readSpans inner virtualSize unit locate hostAt offset len).Refines
      ((List.range' offset (min len (virtualSize - offset))).mapM
        (walkUnit content unit located)) := by
  rw [readSpans, if_neg (by omega)]
  exact readSpans_go_refines hunit (by omega) hl hh (by omega) (by omega) (.inl rfl)

end

end Vdisk
end Latent
