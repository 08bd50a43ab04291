import Latent.Scan.Engine
import Latent.Source.Window

open Rust Search

namespace Latent

namespace Hit

-- The hit, seen from further to the front.
def moved (offset : ℕ) (h : Hit) : Hit :=
  { h with offset := offset + h.offset }

theorem moved_lt_moved_iff {offset : ℕ} {h₁ h₂ : Hit} : h₁.moved offset < h₂.moved offset ↔ h₁ < h₂ := by
  simp only [lt_iff, moved]
  omega

-- All of the hit lies inside a part of the source.
def Inside (patterns : List Bytes) (offset len : ℕ) (h : Hit) : Prop :=
  offset ≤ h.offset ∧ h.offset < offset + len ∧
    ∀ pat ∈ patterns[h.patternId]?, h.offset + pat.length ≤ offset + len

instance (patterns : List Bytes) (offset len : ℕ) (h : Hit) : Decidable (h.Inside patterns offset len) :=
  inferInstanceAs (Decidable (_ ∧ _ ∧ _))

end Hit

namespace Scanner

variable {patterns : List Bytes} {content : Bytes} {offset len : ℕ} {hits hits' : List Hit}

-- The occurrences in a part of the content are the ones in the content that lie inside it.
theorem hits_inside (hl : offset + len ≤ content.length)
    (hlt : hits.Pairwise (· < ·)) (hm : ∀ h, h ∈ hits ↔ h.offset < content.length ∧
      ∃ pat, patterns[h.patternId]? = some pat ∧ OccursAt content pat h.offset)
    (hlt' : hits'.Pairwise (· < ·)) (hm' : ∀ h, h ∈ hits' ↔ h.offset < (subslice content offset len).length ∧
      ∃ pat, patterns[h.patternId]? = some pat ∧ OccursAt (subslice content offset len) pat h.offset) :
    hits'.map (Hit.moved offset) = hits.filter (Hit.Inside patterns offset len) := by
  refine List.Pairwise.eq_of_mem_iff (r := (· < ·)) ?moved (hlt.filter _) ?same
  case moved => exact List.pairwise_map.mpr (hlt'.imp fun h => Hit.moved_lt_moved_iff.mpr h)
  case same =>
    intro h
    simp only [List.mem_map, List.mem_filter, decide_eq_true_eq, hm, hm', occursAt_subslice hl,
      length_subslice_of_le hl]
    constructor
    case mp =>
      rintro ⟨h', ⟨hn, pat, hp, ho, hfit⟩, rfl⟩
      refine ⟨⟨?_, pat, hp, ho⟩, Nat.le_add_right .., Nat.add_lt_add_left hn offset, ?_⟩
      · dsimp only [Hit.moved]
        omega
      · intro pat' hp'
        cases hp.symm.trans hp'
        dsimp only [Hit.moved]
        omega
    case mpr =>
      rintro ⟨⟨hn, pat, hp, ho⟩, hle, hlt, hfit⟩
      have hfit := hfit pat hp
      have he : offset + (h.offset - offset) = h.offset := Nat.add_sub_cancel' hle
      refine ⟨{ h with offset := h.offset - offset }, ⟨by dsimp only; omega, pat, hp, ?_⟩, ?_⟩
      · dsimp only
        rw [he]
        exact ⟨ho, by omega⟩
      · simp only [Hit.moved, he]

section

variable [OverflowChecks] {rt rt' : Runtime} {config config' : ScanConfig} {s s' : Scanner patterns}
variable {source : Source} {size : Option ℕ} {w : Window}

-- Scanning a window finds what scanning the whole source finds inside of it, whatever the two scanners'
-- blocks, threads and automata are like. What it does not find is what reaches past its ends.
theorem scan_window (hnew : new rt patterns config = .ok s) (hnew' : new rt' patterns config' = .ok s')
    (hpool : ∀ threads, rt.buildPool threads = .ok ()) (hpool' : ∀ threads, rt'.buildPool threads = .ok ())
    (hc : source.Conforming content) (hw : Window.range source offset size = .ok w)
    (hf : config.Fits content.length) (hf' : config'.Fits w.len)
    (hoverlap : ∀ pat ∈ patterns, pat.length - 1 ≤ config.overlap.toNat)
    (hoverlap' : ∀ pat ∈ patterns, pat.length - 1 ≤ config'.overlap.toNat) :
    ∃ hits hits', s.scan rt source = .ok hits ∧ s'.scan rt' w.toSource = .ok hits' ∧
      hits'.map (Hit.moved offset) = hits.filter (Hit.Inside patterns offset w.len) := by
  have ho := Window.range_eq_ok_iff.mp ⟨w, hw⟩
  obtain ⟨w', hw', hinner, hoff, _⟩ := Window.range_ok size ho
  cases hw.symm.trans hw'
  have hwithin : offset + w.len ≤ content.length := by
    have := w.within
    rw [hinner, hoff, hc.size_eq] at this
    exact this
  have hl : (subslice content offset w.len).length = w.len := length_subslice_of_le hwithin
  have hc' : w.toSource.Conforming (subslice content offset w.len) := hoff ▸ Window.conforming (hinner ▸ hc)
  have ⟨plan, hp, hres⟩ := resolve_of_new hnew content.length
  have ⟨plan', hp', hres'⟩ := resolve_of_new hnew' (subslice content offset w.len).length
  have ⟨hits, hscan, hlt, hm⟩ := scan_spec hp hpool hc (hf plan hres)
  have hfit : plan'.blockCount * plan'.blockSize < 2 ^ 64 ∧
      (subslice content offset w.len).length + plan'.overlap < 2 ^ 64 := by
    rw [hl] at hres' ⊢
    exact hf' plan' hres'
  have ⟨hits', hscan', hlt', hm'⟩ := scan_spec hp' hpool' hc' hfit
  exact ⟨hits, hits', hscan, hscan', hits_inside hwithin hlt
    (fun h => (hm h).trans (sees_iff_of_overlap hres hoverlap h)) hlt'
    fun h => (hm' h).trans (sees_iff_of_overlap hres' hoverlap' h)⟩

end

section

attribute [local instance] OverflowChecks.on

-- The middle of "ABB", where only the second pattern has room.
theorem scan_window_middle :
    ∃ (w : Window) (s s' : Scanner overlappingPatterns) (hits hits' : List Hit),
      Window.range (rawSource [65, 66, 66]) 1 (some 1) = .ok w ∧
      s.scan naiveRuntime (rawSource [65, 66, 66]) = .ok hits ∧ s'.scan naiveRuntime w.toSource = .ok hits' ∧
        hits'.map (Hit.moved 1) = hits.filter (Hit.Inside overlappingPatterns 1 w.len) := by
  have hc : (rawSource [65, 66, 66]).Conforming [65, 66, 66] := rawSource_conforming (by decide)
  have hf : ScanConfig.Fits ⟨2, 1, 1, 16⟩ 3 := ScanConfig.fits_of_lt (by decide)
  have hf' : ScanConfig.Fits ⟨4, 2, 1, 16⟩ 1 := ScanConfig.fits_of_lt (by decide)
  have hnew : new naiveRuntime overlappingPatterns ⟨2, 1, 1, 16⟩ = .ok _ := rfl
  have hnew' : new naiveRuntime overlappingPatterns ⟨4, 2, 1, 16⟩ = .ok _ := rfl
  have hw : Window.range (rawSource [65, 66, 66]) 1 (some 1) = .ok _ := rfl
  have ⟨hits, hits', h⟩ :=
    scan_window hnew hnew' (fun _ => rfl) (fun _ => rfl) hc hw hf hf' (by decide) (by decide)
  exact ⟨_, _, _, hits, hits', hw, h⟩

end

end Scanner
end Latent
