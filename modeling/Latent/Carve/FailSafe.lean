import Latent.Carve.Accounting
import Latent.Carve.Independence
import Latent.Source.Degraded

open Rust

namespace Latent

section

variable [OverflowChecks] {s t : Source} (h : s.Impaired t)

include h

theorem sourceReader_orFails (len pos : ℕ) :
    ((sourceReader s).read len pos).OrFails Eq ((sourceReader t).read len pos) :=
  (h.readAt _ _).bind fun _ _ => .refl _

theorem hashSource_impaired [Sha256] (fuel : ℕ) :
    hashSource s fuel = hashSource t fuel ∨ ∃ e, hashSource s fuel = some (.err e) := by
  have hf : (sourceReader s).fold (64 * 1024) Sha256.update fuel 0 Sha256.new = _ ∨ _ :=
    Reader.fold_orFails fun pos => sourceReader_orFails h (64 * 1024) pos
  simp only [hashSource, sha256ReaderOf, sourceIo, h.identity_eq]
  rcases hf with hf | ⟨e, hf⟩
  · exact .inl (by rw [hf])
  · exact .inr ⟨_, by rw [hf]; rfl⟩

-- A block that cannot be read ends the scan. It is not skipped.
theorem Scanner.scan_orFails {patterns : List Bytes} (rt : Runtime) (scanner : Scanner patterns) :
    (scanner.scan rt s).OrFails Eq (scanner.scan rt t) := by
  have hb : ∀ plan block, (scanner.scanBlock s plan block).OrFails Eq (scanner.scanBlock t plan block) := by
    intro plan block
    iterate 4 refine .bind (.refl _) fun _ _ => ?_
    exact .bind ((h.readExactAt _ _).mapErr _) fun _ _ => .refl _
  simp only [scan, h.size_eq]
  refine .bind (.refl _) fun plan _ => .ite (fun _ => .refl _) fun _ => .bind (.refl _) fun _ _ => ?_
  refine .bind (.bind (.mapM fun block _ => hb plan block) fun _ _ => ?_) fun _ _ => .refl _
  exact .mapM fun block _ => hb plan block

end

namespace Registry

-- Two registries that dispatch in the same way and have dispatched as many candidates to each extractor.
structure Alike (reg reg' : Registry) : Prop where
  extractors   : reg.extractors = reg'.extractors
  patternOwner : reg.patternOwner = reg'.patternOwner
  seen         : ∀ i : ℕ, reg.counters[i]?.map (·.seen) = reg'.counters[i]?.map (·.seen)

variable {reg reg' : Registry}

theorem Alike.refl (reg : Registry) : reg.Alike reg :=
  ⟨rfl, rfl, fun _ => rfl⟩

theorem Alike.count (h : reg.Alike reg') (owner : ℕ) {f g : Counters → Counters}
    (hf : ∀ c c', c.seen = c'.seen → (f c).seen = (g c').seen) :
    (reg.count owner f).Alike (reg'.count owner g) where
  extractors   := h.extractors
  patternOwner := h.patternOwner
  seen i := by
    have hi := h.seen i
    simp only [Registry.count, List.getElem?_modify]
    by_cases ho : owner = i
    case neg => simpa [ho] using hi
    case pos =>
      cases hc : reg.counters[i]? with
      | none   => cases hc' : reg'.counters[i]? with
        | none    => simp
        | some c' => simp [hc, hc'] at hi
      | some c => cases hc' : reg'.counters[i]? with
        | none    => simp [hc, hc'] at hi
        | some c' =>
          simp only [hc, hc', Option.map_some, Option.some.injEq] at hi
          simp [ho, hf c c' hi]

variable [OverflowChecks] {s t : Source}

-- What can be carved, next to what could be if no read failed.
def Less (a b : List Carved × Registry) : Prop :=
  a.1.Sublist b.1 ∧ a.2.Alike b.2

theorem extractHit_follows (h : s.Impaired t) (hr : reg.Alike reg') (offset id : ℕ) :
    (reg.extractHit s offset id).Follows Less (reg'.extractHit t offset id) := by
  simp only [extractHit, hr.patternOwner, hr.extractors, h.size_eq]
  cases reg'.patternOwner[id]? with
  | none       => exact fun b hb => ⟨_, rfl, by cases hb; exact ⟨List.Sublist.refl _, hr⟩⟩
  | some owner =>
    refine .same fun e _ => ?_
    have hsee : (reg.count owner .see).Alike (reg'.count owner .see) := by
      refine hr.count owner fun _ _ hc => ?_
      simp only [Counters.see, hc]
    have hreject : ((reg.count owner .see).count owner .reject).Alike
        ((reg'.count owner .see).count owner .reject) := by
      refine hsee.count owner fun _ _ hc => ?_
      exact hc
    have haccept : ∀ n, ((reg.count owner .see).count owner (.accept · n)).Alike
        ((reg'.count owner .see).count owner (.accept · n)) := by
      refine fun n => hsee.count owner fun _ _ hc => ?_
      exact hc
    have hmiss : ∀ n, ((reg.count owner .see).count owner .reject).Alike
        ((reg'.count owner .see).count owner (.accept · n)) := by
      refine fun n => hsee.count owner fun _ _ hc => ?_
      exact hc
    intro b hb
    have hread := (h.readExactAt offset (min e.maxStructureSize (U64.saturatingSub t.size offset))).cases
    cases ht : t.readExactAt offset (min e.maxStructureSize (U64.saturatingSub t.size offset)) with
    | panic   => simp only [ht] at hb; cases hb
    | err e'  =>
      simp only [ht] at hb hread
      cases hb
      rcases hread with hs | ⟨_, hs⟩
      · exact ⟨([], (reg.count owner .see).count owner .reject), by simp only [hs], .refl [], hreject⟩
      · exact ⟨([], (reg.count owner .see).count owner .reject), by simp only [hs], .refl [], hreject⟩
    | ok buf  =>
      simp only [ht] at hb hread
      cases hx : e.extract offset buf with
      | panic     => simp only [hx] at hb; cases hb
      | err _     =>
        simp only [hx] at hb
        cases hb
        rcases hread with hs | ⟨_, hs⟩
        · exact ⟨([], (reg.count owner .see).count owner .reject), by simp only [hs, hx], .refl [], hreject⟩
        · exact ⟨([], (reg.count owner .see).count owner .reject), by simp only [hs], .refl [], hreject⟩
      | ok carved =>
        simp only [hx] at hb
        cases hb
        -- If it is this read that fails, the candidate is rejected, and what it holds is missing.
        rcases hread with hs | ⟨_, hs⟩
        · exact ⟨(carved, (reg.count owner .see).count owner (.accept · carved.length)),
            by simp only [hs, hx], .refl carved, haccept _⟩
        · exact ⟨([], (reg.count owner .see).count owner .reject), by simp only [hs], List.nil_sublist _, hmiss _⟩

theorem extractHits_follows (h : s.Impaired t) (hr : reg.Alike reg') (hits : List (ℕ × ℕ)) :
    (extractHits s reg hits).Follows Less (extractHits t reg' hits) := by
  induction hits generalizing reg reg' with
  | nil =>
    intro b hb
    cases hb
    exact ⟨_, rfl, .refl _, hr⟩
  | cons hit hits hi =>
    refine .bind (extractHit_follows h hr hit.1 hit.2) fun a b hl => ?_
    refine .bind (hi hl.2) fun a' b' hl' => ?_
    intro c hc
    cases hc
    exact ⟨_, rfl, hl.1.append hl'.1, hl'.2⟩

end Registry

-- What everything that works on a source makes of one some of whose reads fail, next to what it makes of
-- one with the same content. All but the extraction fails as well where it comes to such a read.
structure Source.FailSafe [OverflowChecks] (s t : Source) (content : Bytes) : Prop where
  reads  : ∀ offset len, s.readExactAt offset len = .ok (subslice content offset len) ∨
    ∃ e, s.readExactAt offset len = .err e
  digest : ∀ [Sha256] fuel, content.length < fuel →
    hashSource s fuel = some (.ok (hexDigest content)) ∨ ∃ e, hashSource s fuel = some (.err e)
  scan   : ∀ {patterns : List Bytes} rt (scanner : Scanner patterns),
    (scanner.scan rt s).OrFails Eq (scanner.scan rt t)
  carve  : ∀ (reg : Registry) hits, (reg.extractHits s hits).Follows Registry.Less (reg.extractHits t hits)
  disk   : ∀ (d : Disk) offset len,
    ((d.withInner s).readAt offset len).OrFails Eq ((d.withInner t).readAt offset len)
  qcow2  : s.identity.path = t.identity.path → (Qcow2Source.open s).OrFails Eq (do
    let q ← Qcow2Source.open t
    .ok { q with inner := s })
  vhdx   : s.identity.path = t.identity.path → (VhdxSource.open s).OrFails Eq (do
    let v ← VhdxSource.open t
    .ok { v with inner := s })

namespace Degraded

section

variable [OverflowChecks] {s t : Source} {content : Bytes}

-- However the sources are nested and whichever reads fail, nothing is made up for what cannot be read.
theorem fail_safe (hs : Degraded s content) (ht : Mounted t content) : s.FailSafe t content := by
  have ⟨u, hu, h⟩ := hs.exists_mounted
  have hc := hu.conforming
  have hi := hc.interchangeable ht.conforming
  refine ⟨?reads, ?digest, ?scan, ?carve, ?disk, ?qcow2, ?vhdx⟩
  case reads =>
    intro offset len
    rcases (h.readExactAt offset len).cases with hr | he
    case inr => exact .inr he
    case inl =>
      rw [hr]
      by_cases h₀ : len = 0
      case pos => exact .inl (by rw [h₀, subslice_len_zero, Source.readExactAt_nothing])
      case neg =>
        rcases hc.readExactAt_cases offset (Nat.pos_of_ne_zero h₀) with ⟨_, hr⟩ | ⟨_, he⟩
        · exact .inl hr
        · exact .inr he
  case digest =>
    intro _ fuel hf
    rcases hashSource_impaired h fuel with hd | he
    · exact .inl (hd.trans (hc.hashSource_eq hf))
    · exact .inr he
  case scan  => exact fun rt scanner => hi.scan rt scanner ▸ Scanner.scan_orFails h rt scanner
  case carve => exact fun reg hits => hi.carve reg hits ▸ Registry.extractHits_follows h (.refl reg) hits
  case disk  =>
    intro d offset len
    rw [← hi.disk d]
    exact d.readAt_orFails h offset len
  case qcow2 =>
    intro hp
    simp only [hi.qcow2 (h.identity_eq ▸ hp), bind_assoc, Exec.ok_bind]
    exact Qcow2Source.open_orFails h
  case vhdx =>
    intro hp
    simp only [hi.vhdx (h.identity_eq ▸ hp), bind_assoc, Exec.ok_bind]
    exact VhdxSource.open_orFails h

end

section

attribute [local instance] Sha256.standard OverflowChecks.on

-- Two candidates, the second of which cannot be read.
theorem fail_safe_marker :
    let s := (RawSource.openPositioned "" (.failingFrom [65, 65] 1)).toSource
    let reg : Registry := .build [Registry.marker "a" [[65]]]
    s.FailSafe (rawSource [65, 65]) [65, 65] ∧ (∃ e, s.readExactAt 0 2 = .err e) ∧
      ∃ carved reg' carved' reg'', reg.extractHits s [(0, 0), (1, 0)] = .ok (carved, reg') ∧
        reg.extractHits (rawSource [65, 65]) [(0, 0), (1, 0)] = .ok (carved', reg'') ∧
        carved.Sublist carved' ∧ carved.length = 1 ∧ carved'.length = 2 := by
  intro s reg
  have hs : Degraded s (File.failingFrom [65, 65] 1).bytes := .file (File.failingFrom_fallible 1 (by decide))
  have ht : Mounted (rawSource [65, 65]) [65, 65] := .file {
    size_lt := by decide
    pread   := fun _ len h₀ _ => ⟨len, h₀, Nat.le_refl _, rfl⟩
  }
  have h := fail_safe hs ht
  have hone : (reg.extractHits s [(0, 0), (1, 0)] >>= fun x => .ok x.1.length) = .ok 1 := by decide +kernel
  have htwo : (reg.extractHits (rawSource [65, 65]) [(0, 0), (1, 0)] >>= fun x => .ok x.1.length) = .ok 2 := by
    decide +kernel
  obtain ⟨⟨carved', reg''⟩, hr, hl⟩ := Exec.bind_eq_ok.mp htwo
  have ⟨⟨carved, reg'⟩, hr', hless, _⟩ := h.carve reg _ _ hr
  rw [hr', Exec.ok_bind] at hone
  exact ⟨h, ⟨.io "" "Input/output error", by decide +kernel⟩, carved, reg', carved', reg'', hr', hr, hless,
    Exec.ok.inj hone, Exec.ok.inj hl⟩

end

end Degraded
end Latent
