import Latent.Source.Vdisk.Arithmetic

open Rust

namespace Latent

namespace Disk

def identity : Disk → Identity
  | qcow2 s => s.identity
  | vmdk s  => s.identity
  | vhdx s  => s.identity

-- The whole disk as its tables map it. There is none where the walk of one of its bytes fails.
def flat (d : Disk) (content : Bytes) : Option Bytes :=
  (List.range' 0 d.virtualSize).mapM (d.walk content)

-- The tables map every byte of the disk, and what they map it to is `flat`.
structure Maps (d : Disk) (content flat : Bytes) : Prop where
  length_eq : flat.length = d.virtualSize
  walk_eq   : ∀ x < d.virtualSize, d.walk content x = flat[x]?

section

variable [OverflowChecks]

def toSource (d : Disk) : Source where
  size     := d.virtualSize
  identity := d.identity
  readAt   := d.readAt

end

variable {d : Disk} {content flat : Bytes} {offset len : ℕ}

theorem flat_eq_some_iff : d.flat content = some flat ↔ d.Maps content flat := by
  simp only [Disk.flat, mapM_range'_eq_some_iff, Nat.zero_add]
  exact ⟨fun h => ⟨h.1, h.2⟩, fun h => ⟨h.length_eq, h.walk_eq⟩⟩

-- Any part of the disk that lies inside it is that part of the flat content.
theorem mapM_walk_of_flat (h : d.flat content = some flat) (hl : offset + len ≤ d.virtualSize) :
    (List.range' offset len).mapM (d.walk content) = some (subslice flat offset len) := by
  have ⟨hs, hw⟩ := flat_eq_some_iff.mp h
  refine mapM_range'_eq_some_iff.mpr ⟨length_subslice_of_le (by omega), fun i hi => ?_⟩
  rw [hw _ (by omega), getElem?_subslice_of_lt hi]

-- A host byte that is inside the container has an address that fits.
theorem sumFits_of_walk (hs : content.length < 2 ^ 64) (h : d.walk content offset ≠ none) :
    d.SumFits content offset := by
  cases d with
  | qcow2 s => trivial
  | vhdx s  => trivial
  | vmdk s  =>
    intro host hl
    by_contra hn
    apply h
    rw [Disk.walk, VmdkSource.walk_eq_walkUnit, Vdisk.walkUnit, hl, Option.bind_some]
    exact List.getElem?_eq_none (by omega)

section

variable [OverflowChecks]

theorem readAt_of_flat (hc : d.inner.Conforming content) (h : d.flat content = some flat)
    (ho : offset ≤ d.virtualSize) :
    d.readAt offset len = .ok (subslice flat offset (min len (d.virtualSize - offset))) := by
  by_cases hn : min len (d.virtualSize - offset) = 0
  case pos => rw [readAt_nothing ho hn, hn, subslice_len_zero]
  case neg =>
    have ⟨hl, hw⟩ := flat_eq_some_iff.mp h
    have hne : d.walk content offset ≠ none := by
      rw [hw offset (by omega), ne_eq, List.getElem?_eq_none_iff]
      omega
    have hr := readAt_refines hc len ho (sumFits_of_walk hc.size_lt hne)
    rw [mapM_walk_of_flat h (by omega)] at hr
    exact hr

-- A disk all of whose bytes can be walked is a source of its flat content, whatever the container's
-- reads are like.
theorem conforming (hc : d.inner.Conforming content) (h : d.flat content = some flat) :
    d.toSource.Conforming flat := by
  have ⟨hl, _⟩ := flat_eq_some_iff.mp h
  constructor
  case size_eq => exact hl.symm
  case size_lt => exact hl ▸ d.virtualSize_lt
  case outOfRange =>
    intro offset len ho
    rw [hl] at ho ⊢
    exact readAt_outOfRange len ho
  case inRange =>
    intro offset len ho
    rw [hl] at ho ⊢
    exact ⟨_, readAt_of_flat hc h ho, Nat.le_refl _, id⟩

theorem walk_of_conforming (hc : d.inner.Conforming content) (h : d.toSource.Conforming flat) {x : ℕ}
    (hx : x < d.virtualSize) (hs : d.SumFits content x) : d.walk content x = flat[x]? := by
  have hl : d.virtualSize = flat.length := h.size_eq
  have hn : min 1 (flat.length - x) = 1 := by omega
  obtain ⟨n, hr, hle, hp⟩ := h.inRange 1 (show x ≤ flat.length by omega)
  have h₁ : n = 1 := by omega
  have hr : d.readAt x 1 = .ok (subslice flat x n) := hr
  have hw := (readAt_refines hc 1 (by omega) hs).ok_iff (subslice flat x n) |>.mp hr
  rw [hl, hn] at hw
  have ⟨_, hb⟩ := mapM_range'_eq_some_iff.mp hw
  have := hb 0 (by omega)
  rwa [h₁, Nat.add_zero, getElem?_subslice_of_lt (by omega), Nat.add_zero] at this

-- Where the address of a byte did not fit, that of an earlier byte of its grain would be the last one that
-- does, and there is nothing at that address to read.
theorem sumFits_of_conforming (hc : d.inner.Conforming content) (h : d.toSource.Conforming flat) {x : ℕ}
    (hx : x < d.virtualSize) : d.SumFits content x := by
  cases d with
  | qcow2 s => trivial
  | vhdx s  => trivial
  | vmdk s  =>
    intro host hl
    by_contra hn
    have hh := VmdkSource.located_lt hl
    have hpos : 0 < s.grainBytes := Nat.lt_of_lt_of_le (by decide) s.grainBytes_pos
    have hg := Nat.mod_lt x hpos
    have hx' := Nat.div_add_mod' x s.grainBytes
    obtain ⟨y, hy⟩ : ∃ y, y = 2 ^ 64 - 1 - host + s.grainBytes * (x / s.grainBytes) := ⟨_, rfl⟩
    have hdiv : y / s.grainBytes = x / s.grainBytes := by
      rw [hy, Nat.add_mul_div_left _ _ hpos, Nat.div_eq_of_lt (by omega), Nat.zero_add]
    have hmod : y % s.grainBytes = 2 ^ 64 - 1 - host := by
      rw [hy, Nat.add_mul_mod_self_left, Nat.mod_eq_of_lt (by omega)]
    have hlt : y < x := by
      rw [Nat.mul_comm] at hx'
      omega
    have hfits : (Disk.vmdk s).SumFits content y := by
      intro host' hl'
      rw [hdiv] at hl'
      cases hl.symm.trans hl'
      rw [hmod]
      omega
    have hw := walk_of_conforming hc h (Nat.lt_trans hlt hx) hfits
    have hsize : (Disk.vmdk s).virtualSize = flat.length := h.size_eq
    have hnone : (Disk.vmdk s).walk content y = none := by
      rw [Disk.walk, VmdkSource.walk_eq_walkUnit, Vdisk.walkUnit, hdiv, hl, Option.bind_some]
      have := hc.size_lt
      exact List.getElem?_eq_none (by omega)
    rw [hnone, eq_comm, List.getElem?_eq_none_iff] at hw
    omega

-- There is no other way for a disk to conform: what it then is a source of is the walk of all its bytes.
theorem flat_of_conforming (hc : d.inner.Conforming content) (h : d.toSource.Conforming flat) :
    d.flat content = some flat :=
  flat_eq_some_iff.mpr ⟨Eq.symm h.size_eq, fun _ hx => walk_of_conforming hc h hx (sumFits_of_conforming hc h hx)⟩

-- A disk reads like a flat content exactly where its tables map every byte, and then to that content.
theorem serves_flat_iff (hc : d.inner.Conforming content) :
    d.toSource.Conforming flat ↔ d.flat content = some flat :=
  ⟨flat_of_conforming hc, conforming hc⟩

end

section

attribute [local instance] OverflowChecks.on

-- An image that is cut off inside its cluster is read like no content at all.
theorem serves_flat_iff_cut : ∃ d : Disk, d.Opened (rawSource (qcow2Image 1024 [7])) ∧
    ∀ flat, ¬d.toSource.Conforming flat := by
  have h : (Qcow2Source.open (rawSource (qcow2Image 1024 [7])) >>= fun s =>
      .ok ((Disk.qcow2 s).flat (qcow2Image 1024 [7]))) = .ok none := by
    decide +kernel
  have ⟨s, ho, hf⟩ := Exec.bind_eq_ok.mp h
  have hi : s.inner = rawSource (qcow2Image 1024 [7]) := (Qcow2Source.open_opened ho).inner_eq
  have hc : s.inner.Conforming (qcow2Image 1024 [7]) := hi ▸ rawSource_conforming (by decide +kernel)
  refine ⟨.qcow2 s, .qcow2 ho, fun flat hflat => ?_⟩
  have hn := (serves_flat_iff (d := .qcow2 s) hc).mp hflat
  cases hn.symm.trans (Exec.ok.inj hf)

end

end Disk
end Latent
