import Latent.Rust.Ensures
import Latent.Source.Vdisk.Buffer
import Latent.Source.Vdisk.ZeroMarker

open Rust

namespace Latent

namespace Vdisk

variable [OverflowChecks] {α : Type} {inner : Source} {content : Bytes}

theorem readExactAt_ensures (hc : inner.Conforming content) {width : ℕ} (hw : 0 < width) (offset : ℕ) :
    (inner.readExactAt offset width).Ensures fun _ => offset + width ≤ content.length := by
  rcases hc.readExactAt_cases offset hw with ⟨hle, hr⟩ | ⟨_, e, hr⟩
  · rw [hr]
    exact hle
  · rw [hr]
    exact Exec.ensures_err

theorem readField_ensures (hc : inner.Conforming content) (decode : Bytes → α) {width : ℕ}
    (hw : 0 < width) (offset : ℕ) :
    (readField decode width inner offset).Ensures fun _ => offset + width ≤ content.length :=
  (readExactAt_ensures hc hw offset).bind fun _ h => h

omit [OverflowChecks] in
theorem readAt_ensures (hc : inner.Conforming content) (offset len : ℕ) :
    (inner.readAt offset len).Ensures fun _ => True := by
  by_cases ho : offset ≤ content.length
  case pos =>
    have ⟨n, hr, _⟩ := hc.inRange len ho
    rw [hr]
    trivial
  case neg =>
    rw [hc.outOfRange len (Nat.lt_of_not_le ho)]
    exact Exec.ensures_err

end Vdisk

open Vdisk

section

variable [OverflowChecks] {inner : Source} {content : Bytes} {path : String}

theorem Qcow2Source.open_ensures (hc : inner.Conforming content) :
    (Qcow2Source.open inner).Ensures fun _ => True := by
  simp only [Qcow2Source.open]
  refine .bind (readExactAt_ensures hc (by decide) _) fun _ _ => .bind .errIf fun _ _ => ?_
  refine .bind (readField_ensures hc _ (by decide) _) fun _ _ => .bind .errIf fun _ _ => ?_
  refine .bind (readField_ensures hc _ (by decide) _) fun _ _ => .bind .errIf fun _ _ => ?_
  refine .bind (readField_ensures hc _ (by decide) _) fun _ _ => .bind .errIf fun _ _ => ?_
  refine .bind (readField_ensures hc _ (by decide) _) fun _ _ => .bind .errIf fun _ _ => ?_
  refine .bind (readField_ensures hc _ (by decide) _) fun _ _ => ?_
  split
  case isFalse => exact Exec.ensures_err
  case isTrue =>
    refine .bind (readField_ensures hc _ (by decide) _) fun _ _ => ?_
    refine .bind (readField_ensures hc _ (by decide) _) fun _ _ => ?_
    exact .bind (readField_ensures hc _ (by decide) _) fun _ _ => trivial

namespace VmdkSource

omit [OverflowChecks] in
theorem rejectIfHasParent_ensures (hc : inner.Conforming content) (offset size : ℕ) :
    (rejectIfHasParent inner path offset size).Ensures fun _ => True := by
  rw [rejectIfHasParent]
  split
  case isTrue  => trivial
  case isFalse => exact .bind (readAt_ensures hc _ _) fun _ _ => Exec.Ensures.errIf.mono fun _ _ => trivial

theorem open_ensures (hc : inner.Conforming content) :
    (VmdkSource.open inner).Ensures fun _ => True := by
  simp only [VmdkSource.open]
  refine .bind (readExactAt_ensures hc (by decide) _) fun _ _ => .bind .errIf fun _ _ => ?_
  refine .bind (readField_ensures hc _ (by decide) _) fun _ _ => .bind .errIf fun _ _ => ?_
  refine .bind (readField_ensures hc _ (by decide) _) fun _ _ => ?_
  refine .bind (readField_ensures hc _ (by decide) _) fun _ _ => ?_
  refine .bind (readField_ensures hc _ (by decide) _) fun _ _ => ?_
  refine .bind (readField_ensures hc _ (by decide) _) fun _ _ => ?_
  refine .bind (readField_ensures hc _ (by decide) _) fun _ _ => ?_
  refine .bind (readField_ensures hc _ (by decide) _) fun _ _ => ?_
  split
  case isFalse => exact Exec.ensures_err
  case isTrue =>
    split
    case isFalse => exact Exec.ensures_err
    case isTrue =>
      split
      case isFalse => exact Exec.ensures_err
      case isTrue  => exact .bind (rejectIfHasParent_ensures hc _ _) fun _ _ => trivial

end VmdkSource

namespace VhdxSource

theorem regionEntry_ensures (hc : inner.Conforming content) (found : Regions) {i : ℕ} (hi : i < 2047) :
    (regionEntry inner found i).Ensures fun _ => True := by
  simp only [regionEntry]
  refine .bind (U64.add_ensures (by decide)) fun _ h => ?_
  subst h
  refine .bind (U64.mul_ensures (by omega)) fun _ h => ?_
  subst h
  refine .bind (U64.add_ensures (by simp only [REGION_TABLE]; omega)) fun entry h => ?_
  refine .bind (readExactAt_ensures hc (by decide) _) fun _ _ => ?_
  refine .bind (U64.add_ensures (by simp only [REGION_TABLE] at h; omega)) fun _ _ => ?_
  exact .bind (readField_ensures hc _ (by decide) _) fun _ _ => trivial

theorem regionTable_ensures (hc : inner.Conforming content) :
    (regionTable inner path).Ensures fun _ => True := by
  simp only [regionTable]
  refine .bind (readExactAt_ensures hc (by decide) _) fun _ _ => .bind .errIf fun _ _ => ?_
  refine .bind (U64.add_ensures (by decide)) fun _ _ => ?_
  refine .bind (readField_ensures hc _ (by decide) _) fun count _ => .bind .errIf fun _ hcount => ?_
  have hle : count.toNat ≤ 2047 := UInt32.le_iff_toNat_le.mp (UInt32.not_lt.mp hcount)
  refine .bind (Exec.Ensures.foldlM (R := fun _ => True) trivial fun found i hi _ => ?_) fun found _ => ?_
  · exact regionEntry_ensures hc found (by have := List.mem_range.mp hi; omega)
  · split
    · trivial
    · exact Exec.ensures_err

-- The metadata region begins inside the container, and no sum reaches further from there than 2³².
theorem metadataEntry_ensures (hc : inner.Conforming content) (hl : content.length < 2 ^ 63)
    {region : ℕ} (hr : region ≤ content.length) (found : Items) {i : ℕ} (hi : i < 2047) :
    (metadataEntry inner region found i).Ensures fun _ => True := by
  simp only [metadataEntry]
  refine .bind (U64.add_ensures (by omega)) fun _ h => ?_
  subst h
  refine .bind (U64.mul_ensures (by omega)) fun _ h => ?_
  subst h
  refine .bind (U64.add_ensures (by omega)) fun entry h => ?_
  refine .bind (readExactAt_ensures hc (by decide) _) fun guid _ => ?_
  refine .bind (U64.add_ensures (by omega)) fun _ _ => ?_
  refine .bind (readField_ensures hc _ (by decide) _) fun relative _ => ?_
  have := relative.toNat_lt
  refine .bind (U64.add_ensures (by omega)) fun item _ => ?_
  split
  case isTrue =>
    refine .bind (readField_ensures hc _ (by decide) _) fun _ hitem => ?_
    refine .bind (U64.add_ensures (by omega)) fun _ _ => ?_
    exact .bind (readField_ensures hc _ (by decide) _) fun _ _ => trivial
  case isFalse =>
    split
    case isTrue  => exact .bind (readField_ensures hc _ (by decide) _) fun _ _ => trivial
    case isFalse =>
      split
      case isTrue  => exact .bind (readField_ensures hc _ (by decide) _) fun _ _ => trivial
      case isFalse => trivial

theorem Metadata.read_ensures (hc : inner.Conforming content) (hl : content.length < 2 ^ 63)
    (region : ℕ) : (Metadata.read inner region path).Ensures fun _ => True := by
  simp only [Metadata.read]
  refine .bind (readExactAt_ensures hc (by decide) _) fun _ hr => .bind .errIf fun _ _ => ?_
  refine .bind (U64.add_ensures (by omega)) fun _ _ => ?_
  refine .bind (readField_ensures hc _ (by decide) _) fun count _ => .bind .errIf fun _ hcount => ?_
  have hle : count.toNat ≤ 2047 := UInt16.le_iff_toNat_le.mp (UInt16.not_lt.mp hcount)
  refine .bind (Exec.Ensures.foldlM (R := fun _ => True) trivial fun found i hi _ => ?_) fun found _ => ?_
  · exact metadataEntry_ensures hc hl (by omega) found (by have := List.mem_range.mp hi; omega)
  · exact .bind .okOr fun _ _ => .bind .okOr fun _ _ => .bind .okOr fun _ _ => trivial

theorem open_ensures (hc : inner.Conforming content) (hl : content.length < 2 ^ 63) :
    (VhdxSource.open inner).Ensures fun _ => True := by
  simp only [VhdxSource.open]
  refine .bind (readExactAt_ensures hc (by decide) _) fun _ _ => .bind .errIf fun _ _ => ?_
  refine .bind (regionTable_ensures hc) fun regions _ => ?_
  refine .bind (Metadata.read_ensures hc hl _) fun info _ => .bind .errIf fun _ _ => ?_
  split
  case isFalse => exact Exec.ensures_err
  case isTrue h =>
    have := info.logicalSectorSize.toNat_lt
    refine .bind (U64.mul_ensures (by omega)) fun _ _ => ?_
    rw [U64.div_eq (by omega), Exec.ok_bind]
    trivial

end VhdxSource

end

namespace VmdkSource

variable {s : VmdkSource} {content : Bytes}

-- The host address of a grain comes from its table entry.
theorem located_eq_some_iff {x host : ℕ} :
    s.located content (x / s.grainBytes) = some (some host) ↔
      ∃ entry, s.gtEntry content x = some entry ∧ entry ≠ 0 ∧ entry.toNat * 512 = host := by
  simp only [located, gtEntry, Nat.div_div_eq_div_mul, Option.bind_eq_bind]
  cases leU32? content _ with
  | none => simp
  | some gt =>
    simp only [Option.bind_some]
    split
    case isTrue  => simp
    case isFalse =>
      cases leU32? content _ with
      | none       => simp
      | some entry => by_cases h : entry = 0 <;> simp [h]

-- Where the sum of a grain's address and the position in it does not fit, the checks stop the read.
theorem readAt_eq_panic [OverflowChecks] (hc : s.inner.Conforming content)
    (hchecks : OverflowChecks.enabled = true) {offset len : ℕ} (ho : offset < s.virtualSize) (hl : 0 < len)
    (hs : ¬s.SumFits content offset) : s.readAt offset len = .panic := by
  obtain ⟨host, hloc, hsum⟩ : ∃ host, s.located content (offset / s.grainBytes) = some (some host) ∧
      ¬host + offset % s.grainBytes < 2 ^ 64 := by
    simpa only [SumFits, not_forall, exists_prop] using hs
  have hv := s.virtualSize_lt
  have hp := s.grainBytes_pos
  have hm := Nat.mod_lt offset (show 0 < s.grainBytes by omega)
  have hn : 0 < min len (s.virtualSize - offset) := by omega
  have hdiv := Nat.div_le_div_left (a := offset) hp (by omega)
  have hlocate : s.locate (offset / s.grainBytes) = .ok (some host) := by
    have hr : (s.locate (offset / s.grainBytes)).Refines (s.located content (offset / s.grainBytes)) :=
      locate_refines hc (by omega)
    rwa [hloc] at hr
  have hadd : (U64.add host (offset % s.grainBytes) : Exec SourceError ℕ) = .panic := by
    rw [U64.add, if_neg hsum, U64.overflow, if_pos hchecks]
  obtain ⟨n, he⟩ := Nat.exists_eq_succ_of_ne_zero (Nat.pos_iff_ne_zero.mp hn)
  simp only [readAt, readSpans, if_neg (show ¬s.virtualSize < offset by omega), he, readSpans.go,
    if_pos (Nat.succ_pos n), Nat.add_zero, U64.add_eq (show offset + 0 < 2 ^ 64 by omega),
    U64.rem_eq (show 0 < s.grainBytes by omega), U64.sub_eq (Nat.le_of_lt hm),
    U64.div_eq (show 0 < s.grainBytes by omega), Exec.ok_bind, hlocate, fillSpan, hadd, Exec.panic_bind]

end VmdkSource

namespace Disk

-- The count and the buffer's new content as an exact table walk gives them. There are none where the
-- read is out of range or the walk of one of its bytes fails.
def served (d : Disk) (content : Bytes) (offset : ℕ) (buf : Bytes) : Option (Bytes × ℕ) :=
  if d.virtualSize < offset then
    none
  else
    let n := min buf.length (d.virtualSize - offset)
    ((List.range' offset n).mapM (d.walk content)).map fun bytes => (put buf 0 bytes, n)

-- In either profile nothing overflows into a panic, and no byte comes from a wrapped address.
def ReadsExactly (d : Disk) (content : Bytes) (offset : ℕ) (buf : Bytes) : Prop :=
  ∀ [OverflowChecks], (d.readInto offset buf).Refines (d.served content offset buf)

-- No header of any format makes the code that reads it overflow.
def OpensSafely (inner : Source) : Prop :=
  ∀ [OverflowChecks], Qcow2Source.open inner ≠ .panic ∧ VmdkSource.open inner ≠ .panic ∧
    VhdxSource.open inner ≠ .panic

-- The grain table entry that maps the guest byte at `offset` is no larger than the position in the
-- grain allows.
def GrainSumFits (content : Bytes) (offset : ℕ) : Disk → Prop
  | qcow2 _ | vhdx _ => True
  | vmdk s           => ∀ entry, s.gtEntry content offset = some entry → entry ≠ 0 →
    entry.toNat * 512 + offset % s.grainBytes < 2 ^ 64

variable {src : Source} {content : Bytes} {d : Disk} {offset : ℕ} {buf : Bytes}

theorem sumFits_iff : d.SumFits content offset ↔ d.GrainSumFits content offset := by
  cases d with
  | qcow2 s => exact Iff.rfl
  | vhdx s  => exact Iff.rfl
  | vmdk s  =>
    simp only [SumFits, VmdkSource.SumFits, VmdkSource.located_eq_some_iff, GrainSumFits]
    constructor
    case mp  => exact fun h entry he hne => h _ ⟨entry, he, hne, rfl⟩
    case mpr =>
      rintro h _ ⟨entry, he, hne, rfl⟩
      exact h entry he hne

theorem opensSafely (hc : src.Conforming content) (hl : content.length < 2 ^ 63) : OpensSafely src :=
  ⟨(Qcow2Source.open_ensures hc).ne_panic, (VmdkSource.open_ensures hc).ne_panic,
    (VhdxSource.open_ensures hc hl).ne_panic⟩

theorem readAt_outOfRange [OverflowChecks] (len : ℕ) (ho : d.virtualSize < offset) :
    d.readAt offset len = .err (.outOfRange offset d.virtualSize) := by
  cases d <;> exact if_pos ho

-- A read that has nothing to fill looks nothing up.
theorem readAt_nothing [OverflowChecks] {len : ℕ} (ho : offset ≤ d.virtualSize)
    (hn : min len (d.virtualSize - offset) = 0) : d.readAt offset len = .ok [] := by
  have h : ∀ {inner virtualSize unit locate hostAt}, offset ≤ virtualSize →
      min len (virtualSize - offset) = 0 →
      Vdisk.readSpans inner virtualSize unit locate hostAt offset len = .ok [] := by
    intro inner virtualSize unit locate hostAt ho hn
    simp only [Vdisk.readSpans, if_neg (Nat.not_lt.mpr ho), hn, Vdisk.readSpans.go, Nat.lt_irrefl, if_false]
  cases d with
  | qcow2 s => exact h ho hn
  | vmdk s  => exact h ho hn
  | vhdx s  => exact h ho hn

theorem readInto_refines [OverflowChecks] (hc : d.inner.Conforming content)
    (hs : offset < d.virtualSize → buf ≠ [] → d.SumFits content offset) :
    (d.readInto offset buf).Refines (d.served content offset buf) := by
  rw [readInto_eq, served]
  split
  case isTrue ho =>
    rw [readAt_outOfRange _ ho]
    exact ⟨_, rfl⟩
  case isFalse ho =>
    have ho : offset ≤ d.virtualSize := Nat.le_of_not_lt ho
    by_cases hn : min buf.length (d.virtualSize - offset) = 0
    case pos =>
      rw [readAt_nothing ho hn, hn]
      exact Exec.ok_refines _
    case neg =>
      refine .map <| readAt_refines hc _ ho <| hs (by omega) ?_
      rintro rfl
      exact hn (Nat.zero_min _)

theorem readInto_eq_panic [OverflowChecks] (hchecks : OverflowChecks.enabled = true)
    (hc : d.inner.Conforming content) (ho : offset < d.virtualSize) (hb : buf ≠ [])
    (hs : ¬d.SumFits content offset) : d.readInto offset buf = .panic := by
  have hl : 0 < buf.length := List.length_pos_iff.mpr hb
  cases d with
  | qcow2 s => exact absurd trivial hs
  | vhdx s  => exact absurd trivial hs
  | vmdk s  =>
    rw [readInto_eq, readAt, VmdkSource.readAt_eq_panic hc hchecks ho hl hs]
    rfl

theorem not_readsExactly (h : @readInto OverflowChecks.on d offset buf = .panic) :
    ¬d.ReadsExactly content offset buf := by
  intro hr
  have hr := @hr OverflowChecks.on
  rw [h] at hr
  cases hs : d.served content offset buf <;> simp [hs] at hr

-- The readers' arithmetic is exact but for one sum: that of a grain's address and the position in the
-- grain where the read begins.
theorem reads_exactly_iff [OverflowChecks] (hc : src.Conforming content)
    (hl : content.length ≤ 2 ^ 63 - 1) :
    OpensSafely src ∧ ∀ d : Disk, d.Opened src → ∀ offset buf, d.ReadsExactly content offset buf ↔
      (offset < d.virtualSize → buf ≠ [] → d.GrainSumFits content offset) := by
  refine ⟨opensSafely hc (by omega), fun d hd offset buf => ?_⟩
  have hi : d.inner.Conforming content := hd.inner_eq ▸ hc
  rw [← sumFits_iff]
  constructor
  case mp =>
    intro h ho hb
    by_contra hs
    exact not_readsExactly (@readInto_eq_panic _ _ _ _ OverflowChecks.on rfl hi ho hb hs) h
  case mpr => exact fun hs _ => readInto_refines hi hs

-- A sparse image of one grain of 2⁶⁴ - 512 bytes, which its table places at byte 1024. The last byte
-- of the grain is at 2⁶⁴ + 511.
def hugeGrain : Bytes :=
  VmdkSource.MAGIC ++ Bytes.toLE 4 1 ++ Bytes.toLE 4 0 ++ Bytes.toLE 8 (2 ^ 55 - 1) ++
    Bytes.toLE 8 (2 ^ 55 - 1) ++ Bytes.toLE 8 0 ++ Bytes.toLE 8 0 ++ Bytes.toLE 4 512 ++ Bytes.toLE 8 0 ++
    Bytes.toLE 8 1 ++ Bytes.zeros 447 ++ [0x5a] ++ Bytes.toLE 4 2 ++ Bytes.zeros 508 ++ Bytes.toLE 4 2

-- The checks stop the read of that byte. Without them it returns byte 511 of the container.
theorem hugeGrain_wraps :
    (∃ s, @VmdkSource.open OverflowChecks.on (rawSource hugeGrain) = .ok s ∧
      @readInto OverflowChecks.on (vmdk s) (2 ^ 64 - 513) [0] = .panic ∧
      ¬(vmdk s).ReadsExactly hugeGrain (2 ^ 64 - 513) [0]) ∧
    (∃ s, @VmdkSource.open OverflowChecks.off (rawSource hugeGrain) = .ok s ∧
      @readInto OverflowChecks.off (vmdk s) (2 ^ 64 - 513) [0] = .ok ([0x5a], 1)) ∧
    hugeGrain[511]? = some 0x5a ∧ hugeGrain.length = 1028 := by
  refine ⟨?_, ?_, by decide +kernel, by decide +kernel⟩
  · have ho : (@VmdkSource.open OverflowChecks.on (rawSource hugeGrain) >>= fun _ => .ok ()) = .ok () := by
      decide +kernel
    have hp : (@VmdkSource.open OverflowChecks.on (rawSource hugeGrain) >>= fun s =>
        @readInto OverflowChecks.on (vmdk s) (2 ^ 64 - 513) [0]) = .panic := by
      decide +kernel
    have ⟨s, hs, _⟩ := Exec.bind_eq_ok.mp ho
    rw [hs, Exec.ok_bind] at hp
    exact ⟨s, hs, hp, not_readsExactly hp⟩
  · refine Exec.bind_eq_ok.mp ?_
    decide +kernel

theorem reads_exactly_iff_hugeGrain :
    OpensSafely (rawSource hugeGrain) ∧ ∀ d : Disk, @Opened OverflowChecks.on (rawSource hugeGrain) d →
      ∀ offset buf, d.ReadsExactly hugeGrain offset buf ↔
        (offset < d.virtualSize → buf ≠ [] → d.GrainSumFits hugeGrain offset) :=
  @reads_exactly_iff _ _ OverflowChecks.on (rawSource_conforming (by decide +kernel)) (by decide +kernel)

end Disk
end Latent
