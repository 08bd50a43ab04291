import Latent.Rust.Faults
import Latent.Source.Stack

open Rust

namespace Latent

namespace Source

-- The same source, but for reads that fail or that fail in another way.
structure Impaired (s t : Source) : Prop where
  size_eq     : s.size = t.size
  identity_eq : s.identity = t.identity
  readAt      : ∀ offset len, (s.readAt offset len).OrFails Eq (t.readAt offset len)

namespace Impaired

variable [OverflowChecks] {s t : Source} (h : s.Impaired t)

include h

theorem go_orFails {len fuel offset rest : ℕ} :
    (readExactAt.go s len fuel offset rest).OrFails Eq (readExactAt.go t len fuel offset rest) := by
  induction fuel generalizing offset rest with
  | zero => cases rest <;> exact .refl _
  | succ fuel hi =>
    cases rest with
    | zero => exact .refl _
    | succ rest =>
      simp only [readExactAt.go]
      refine (h.readAt _ _).bind fun bytes _ => .ite (fun _ => .refl _) fun _ => ?_
      refine .ite (fun _ => .refl _) fun _ => .bind (.refl _) fun offset _ => ?_
      exact hi.bind fun _ _ => .refl _

theorem readExactAt (offset len : ℕ) : (s.readExactAt offset len).OrFails Eq (t.readExactAt offset len) :=
  h.go_orFails

end Impaired
end Source

namespace Vdisk

variable [OverflowChecks] {s t : Source} {α : Type} (h : s.Impaired t)

include h

theorem readField_orFails (decode : Bytes → α) (width offset : ℕ) :
    (readField decode width s offset).OrFails Eq (readField decode width t offset) :=
  (h.readExactAt _ _).bind fun _ _ => .refl _

theorem readSpans_go_orFails {locate locate' : ℕ → Exec SourceError (Option ℕ)}
    {hostAt : ℕ → ℕ → Exec SourceError ℕ} (hl : ∀ i, (locate i).OrFails Eq (locate' i))
    {unit offset n fuel done : ℕ} :
    (readSpans.go s unit locate hostAt offset n fuel done).OrFails Eq
      (readSpans.go t unit locate' hostAt offset n fuel done) := by
  induction fuel generalizing done with
  | zero => exact .refl _
  | succ fuel hi =>
    simp only [readSpans.go]
    refine .ite (fun _ => ?_) fun _ => .refl _
    refine .bind (.refl _) fun addr _ => .bind (.refl _) fun within _ => .bind (.refl _) fun left _ => ?_
    refine .bind (.refl _) fun index _ => (hl index).bind fun host? _ => .bind ?_ fun dst _ => ?_
    · cases host? with
      | none      => exact .refl _
      | some host => exact .bind (.refl _) fun _ _ => h.readExactAt _ _
    · exact hi.bind fun _ _ => .refl _

-- A span that cannot be looked up or read is not taken for a hole.
theorem readSpans_orFails {locate locate' : ℕ → Exec SourceError (Option ℕ)}
    {hostAt : ℕ → ℕ → Exec SourceError ℕ} (hl : ∀ i, (locate i).OrFails Eq (locate' i))
    (virtualSize unit offset len : ℕ) :
    (readSpans s virtualSize unit locate hostAt offset len).OrFails Eq
      (readSpans t virtualSize unit locate' hostAt offset len) :=
  .ite (fun _ => .refl _) fun _ => readSpans_go_orFails h hl

end Vdisk

namespace Disk

@[simp] theorem withInner_inner (d : Disk) : d.withInner d.inner = d := by
  cases d <;> rfl

@[simp] theorem identity_withInner (d : Disk) (s : Source) : (d.withInner s).identity = d.identity := by
  cases d <;> rfl

@[simp] theorem virtualSize_withInner (d : Disk) (s : Source) : (d.withInner s).virtualSize = d.virtualSize := by
  cases d <;> rfl

@[simp] theorem flat_withInner (d : Disk) (s : Source) (content : Bytes) :
    (d.withInner s).flat content = d.flat content := by
  cases d <;> rfl

variable [OverflowChecks] {s t : Source} (h : s.Impaired t)

include h

theorem readAt_orFails (d : Disk) (offset len : ℕ) :
    ((d.withInner s).readAt offset len).OrFails Eq ((d.withInner t).readAt offset len) := by
  cases d with
  | qcow2 q =>
    refine Vdisk.readSpans_orFails h (fun cluster => ?_) _ _ _ _
    refine .bind (.refl _) fun l1Index _ => .ite (fun _ => .refl _) fun _ => .bind (.refl _) fun _ _ => ?_
    refine .bind (Vdisk.readField_orFails h _ _ _) fun _ _ => .ite (fun _ => .refl _) fun _ => ?_
    refine .bind (.refl _) fun l2Index _ => .bind (.refl _) fun _ _ => ?_
    exact .bind (Vdisk.readField_orFails h _ _ _) fun _ _ => .refl _
  | vmdk v =>
    refine Vdisk.readSpans_orFails h (fun grain => ?_) _ _ _ _
    refine .bind (.refl _) fun gdIndex _ => .bind (.refl _) fun _ _ => ?_
    refine .bind (Vdisk.readField_orFails h _ _ _) fun _ _ => .ite (fun _ => .refl _) fun _ => ?_
    refine .bind (.refl _) fun _ _ => .bind (.refl _) fun _ _ => ?_
    exact .bind (Vdisk.readField_orFails h _ _ _) fun _ _ => .refl _
  | vhdx v =>
    refine Vdisk.readSpans_orFails h (fun block => ?_) _ _ _ _
    refine .bind (.refl _) fun _ _ => .bind (.refl _) fun _ _ => ?_
    exact .bind (Vdisk.readField_orFails h _ _ _) fun _ _ => .refl _

theorem toSource_impaired (d : Disk) : (d.withInner s).toSource.Impaired (d.withInner t).toSource where
  size_eq     := by simp only [toSource, virtualSize_withInner]
  identity_eq := by simp only [toSource, identity_withInner]
  readAt      := d.readAt_orFails h

end Disk

section

variable [OverflowChecks] {s t : Source} (h : s.Impaired t)

include h

theorem Qcow2Source.open_orFails : (Qcow2Source.open s).OrFails Eq (do
    let q ← Qcow2Source.open t
    .ok { q with inner := s }) := by
  simp only [Qcow2Source.open, bind_assoc, ← h.identity_eq]
  refine .bind (h.readExactAt _ _) fun _ _ => .bind (.refl _) fun _ _ => ?_
  iterate 4 refine .bind (Vdisk.readField_orFails h _ _ _) fun _ _ => .bind (.refl _) fun _ _ => ?_
  refine .bind (Vdisk.readField_orFails h _ _ _) fun clusterBits _ => ?_
  split
  case isFalse => exact .refl _
  case isTrue  =>
    simp only [bind_assoc, Exec.ok_bind]
    iterate 3 refine .bind (Vdisk.readField_orFails h _ _ _) fun _ _ => ?_
    exact .refl _

theorem VmdkSource.open_orFails : (VmdkSource.open s).OrFails Eq (do
    let v ← VmdkSource.open t
    .ok { v with inner := s }) := by
  simp only [VmdkSource.open, bind_assoc, ← h.identity_eq]
  refine .bind (h.readExactAt _ _) fun _ _ => .bind (.refl _) fun _ _ => ?_
  refine .bind (Vdisk.readField_orFails h _ _ _) fun _ _ => .bind (.refl _) fun _ _ => ?_
  iterate 6 refine .bind (Vdisk.readField_orFails h _ _ _) fun _ _ => ?_
  split
  case isFalse => exact .refl _
  case isTrue  =>
    split
    case isFalse => exact .refl _
    case isTrue  =>
      split
      case isFalse => exact .refl _
      case isTrue  =>
        simp only [bind_assoc, Exec.ok_bind]
        refine .bind ?_ fun _ _ => .refl _
        exact .ite (fun _ => .refl _) fun _ => .bind (h.readAt _ _) fun _ _ => .refl _

theorem VhdxSource.regionTable_orFails (path : String) :
    (VhdxSource.regionTable s path).OrFails Eq (VhdxSource.regionTable t path) := by
  refine .bind (h.readExactAt _ _) fun _ _ => .bind (.refl _) fun _ _ => ?_
  refine .bind (.refl _) fun _ _ => .bind (Vdisk.readField_orFails h _ _ _) fun _ _ => ?_
  refine .bind (.refl _) fun _ _ => .bind (.foldlM fun found i => ?_) fun _ _ => .refl _
  refine .bind (.refl _) fun _ _ => .bind (.refl _) fun _ _ => .bind (.refl _) fun _ _ => ?_
  refine .bind (h.readExactAt _ _) fun _ _ => .bind (.refl _) fun _ _ => ?_
  exact .bind (Vdisk.readField_orFails h _ _ _) fun _ _ => .refl _

theorem VhdxSource.metadata_orFails (region : ℕ) (path : String) :
    (VhdxSource.Metadata.read s region path).OrFails Eq (VhdxSource.Metadata.read t region path) := by
  refine .bind (h.readExactAt _ _) fun _ _ => .bind (.refl _) fun _ _ => ?_
  refine .bind (.refl _) fun _ _ => .bind (Vdisk.readField_orFails h _ _ _) fun _ _ => ?_
  refine .bind (.refl _) fun _ _ => .bind (.foldlM fun found i => ?_) fun _ _ => .refl _
  refine .bind (.refl _) fun _ _ => .bind (.refl _) fun _ _ => .bind (.refl _) fun _ _ => ?_
  refine .bind (h.readExactAt _ _) fun _ _ => .bind (.refl _) fun _ _ => ?_
  refine .bind (Vdisk.readField_orFails h _ _ _) fun _ _ => .bind (.refl _) fun item _ => ?_
  refine .ite (fun _ => ?parameters) fun _ => .ite (fun _ => ?size) fun _ =>
    .ite (fun _ => ?sector) fun _ => .refl _
  case parameters =>
    refine .bind (Vdisk.readField_orFails h _ _ _) fun _ _ => .bind (.refl _) fun _ _ => ?_
    exact .bind (Vdisk.readField_orFails h _ _ _) fun _ _ => .refl _
  case size   => exact .bind (Vdisk.readField_orFails h _ _ _) fun _ _ => .refl _
  case sector => exact .bind (Vdisk.readField_orFails h _ _ _) fun _ _ => .refl _

theorem VhdxSource.open_orFails : (VhdxSource.open s).OrFails Eq (do
    let v ← VhdxSource.open t
    .ok { v with inner := s }) := by
  simp only [VhdxSource.open, bind_assoc, ← h.identity_eq]
  refine .bind (h.readExactAt _ _) fun _ _ => .bind (.refl _) fun _ _ => ?_
  refine .bind (VhdxSource.regionTable_orFails h _) fun _ _ => ?_
  refine .bind (VhdxSource.metadata_orFails h _ _) fun _ _ => .bind (.refl _) fun _ _ => ?_
  split
  case isFalse => exact .refl _
  case isTrue  =>
    simp only [bind_assoc, Exec.ok_bind]
    exact .refl _

-- What can be opened is what could be opened if no read failed, with the same tables.
theorem Disk.Opened.of_impaired {d : Disk} (hd : d.Opened s) : (d.withInner t).Opened t := by
  cases hd with
  | qcow2 hs =>
    have ⟨q, hq, he⟩ := Exec.bind_eq_ok.mp ((Qcow2Source.open_orFails h).eq_ok hs)
    cases he
    cases (Qcow2Source.open_opened hq).inner_eq
    exact .qcow2 hq
  | vmdk hs =>
    have ⟨v, hv, he⟩ := Exec.bind_eq_ok.mp ((VmdkSource.open_orFails h).eq_ok hs)
    cases he
    cases (VmdkSource.open_opened hv).inner_eq
    exact .vmdk hv
  | vhdx hs =>
    have ⟨v, hv, he⟩ := Exec.bind_eq_ok.mp ((VhdxSource.open_orFails h).eq_ok hs)
    cases he
    cases (VhdxSource.open_opened hv).inner_eq
    exact .vhdx hv

theorem Window.range_impaired {offset : ℕ} {len : Option ℕ} {w : Window} (hw : Window.range s offset len = .ok w) :
    ∃ w', Window.range t offset len = .ok w' ∧ w'.offset = w.offset ∧ w'.len = w.len ∧
      w.toSource.Impaired w'.toSource := by
  have ho : offset ≤ s.size := Window.range_eq_ok_iff.mp ⟨w, hw⟩
  obtain ⟨w₁, hw₁, hi₁, ho₁, hl₁, hd₁⟩ := Window.range_ok len ho
  cases hw.symm.trans hw₁
  obtain ⟨w', hw', hi, ho', hl, hd⟩ := Window.range_ok len (h.size_eq ▸ ho)
  have ho' : w'.offset = w.offset := ho'.trans ho₁.symm
  have hl : w'.len = w.len := by rw [hl, hl₁, h.size_eq]
  refine ⟨w', hw', ho', hl, hl.symm, (hd₁.trans h.identity_eq).trans hd.symm, fun o n => ?_⟩
  change (w.readAt o n).OrFails Eq (w'.readAt o n)
  simp only [Window.readAt, ho', hl, hi, hi₁]
  refine .ite (fun _ => .refl _) fun _ => .bind (.refl _) fun left _ => ?_
  exact .ite (fun _ => .refl _) fun _ => .bind (.refl _) fun _ _ => h.readAt _ _

end

-- Both backings of a file, and the library.
theorem RawSource.open_impaired {f g : File} (hb : f.bytes = g.bytes)
    (h : ∀ offset len, (f.pread offset len).OrFails Eq (g.pread offset len)) (path : String) (mapped : Bool) :
    (RawSource.open path f mapped).toSource.Impaired (RawSource.open path g mapped).toSource where
  size_eq     := congrArg List.length hb
  identity_eq := rfl
  readAt offset len := by
    simp only [toSource, RawSource.open, readAt, hb]
    refine .ite (fun _ => .refl _) fun _ => .ite (fun _ => .refl _) fun hn => ?_
    have h₀ : g.bytes.length ≠ 0 := by omega
    rw [if_neg h₀, if_neg h₀]
    cases mapped with
    | true  => exact .refl _
    | false => exact (h _ _).mapErr _

theorem EwfSource.toSource_impaired {lib lib' : Libewf} (s : EwfSource)
    (h : ∀ n offset, lib.readRandom s.handle n offset = none ∨
      lib.readRandom s.handle n offset = lib'.readRandom s.handle n offset) :
    (s.toSource lib).Impaired (s.toSource lib') where
  size_eq     := rfl
  identity_eq := rfl
  readAt offset len := by
    change ((s.readAt lib offset len).exec).OrFails Eq ((s.readAt lib' offset len).exec)
    by_cases ho : s.mediaSize.toNat < offset
    case pos =>
      rw [readAt_outOfRange len ho, readAt_outOfRange len ho]
      exact .refl _
    case neg =>
      by_cases hn : min len (s.mediaSize.toNat - offset) = 0
      case pos =>
        rw [readAt_nothing (Nat.le_of_not_lt ho) hn, readAt_nothing (Nat.le_of_not_lt ho) hn]
        exact .refl _
      case neg =>
        rw [readAt_of_read (Nat.le_of_not_lt ho) hn, readAt_of_read (Nat.le_of_not_lt ho) hn]
        rcases h (min len (s.mediaSize.toNat - offset)) (asI64 offset) with hr | hr
        · rw [hr]
          exact .err _ _
        · rw [hr]
          exact .refl _

end Latent
