import Latent.Source.Raw

open Rust

namespace Latent

-- What a call that is handed a buffer leaves in it, besides what it returns and the state it goes on from.
structure Filled (ε σ α : Type) where
  result : Exec ε α
  buf    : Bytes
  state  : σ

namespace Filled

variable {ε σ α β : Type}

-- The `?` operator: an error leaves the buffer as it is.
def bind (x : Filled ε σ α) (f : α → Filled ε σ β) : Filled ε σ β :=
  match x.result with
  | .ok a  => f a
  | .err e => { x with result := .err e }
  | .panic => { x with result := .panic }

variable {x : Filled ε σ α} {f : α → Filled ε σ β}

theorem bind_ok {a : α} (h : x.result = .ok a) : x.bind f = f a := by
  rw [bind, h]

theorem bind_err {e : ε} (h : x.result = .err e) : x.bind f = { x with result := .err e } := by
  rw [bind, h]

end Filled

namespace Source

-- What `read_exact_at` is to return for a buffer of some length.
def exactResult (content : Bytes) (offset len : ℕ) : Exec SourceError Unit :=
  if len = 0 ∨ offset + len ≤ content.length then
    .ok ()
  else if offset ≤ content.length then
    .err (.shortRead content.length len (content.length - offset))
  else
    .err (.outOfRange offset content.length)

-- What it is to do for a source of some content: fill the buffer, or say how much of it is filled.
structure ReadsExactly {σ : Type} (content : Bytes) (offset : ℕ) (buf : Bytes)
    (out : Filled SourceError σ Unit) : Prop where
  returns    : out.result ≠ .panic
  length_buf : out.buf.length = buf.length
  ok_iff     : out.result = .ok () ↔ buf = [] ∨ offset + buf.length ≤ content.length
  filled     : out.result = .ok () → out.buf = subslice content offset buf.length
  shortRead  : offset ≤ content.length → content.length < offset + buf.length →
    out.result = .err (.shortRead content.length buf.length (content.length - offset)) ∧
      out.buf.take (content.length - offset) = subslice content offset (content.length - offset)
  outOfRange : content.length < offset → buf ≠ [] → out.result = .err (.outOfRange offset content.length)

end Source

-- An implementor of the trait, with the state that it may keep behind its shared reference: a read need
-- not return as many bytes as the last one of the same length at the same offset. A read is handed the
-- buffer itself, of which it may also change what lies behind the bytes that it counts.
structure Source.Impl (σ : Type) where
  size   : ℕ
  readAt : (offset : ℕ) → (buf : Bytes) → σ → Filled SourceError σ ℕ

namespace Source.Impl

variable {σ : Type}

section

variable [OverflowChecks]

def readExactAt (s : Impl σ) (offset : ℕ) (buf : Bytes) (state : σ) : Filled SourceError σ Unit :=
  go buf.length buf.length offset buf state
where
  -- The fuel is the one of `Source.readExactAt`. The bytes in front of the rest of the buffer are those
  -- that are read already.
  go (wanted : ℕ) : (fuel offset : ℕ) → (rest : Bytes) → σ → Filled SourceError σ Unit
    | _, _, [], state          => { result := .ok (), buf := [], state }
    | 0, _, b :: rest, state   => { result := .panic, buf := b :: rest, state }
    | fuel + 1, offset, b :: rest, state =>
      let read := s.readAt offset (b :: rest) state
      read.bind fun n =>
        if n = 0 then
          { read with result := .err (.shortRead offset wanted (wanted - (rest.length + 1))) }
        else if rest.length + 1 < n then
          { read with result := .panic }
        else
          Filled.bind { read with result := U64.add offset n } fun offset =>
            let tail := go wanted fuel offset (read.buf.drop n) read.state
            { tail with buf := read.buf.take n ++ tail.buf }

end

-- An implementor whose reads all do what the trait asks of them, in whatever state they find it: a read
-- past the end is refused, any other one returns some of the bytes that fit, but at least one of them.
structure Conforming (s : Impl σ) (content : Bytes) : Prop where
  size_eq    : s.size = content.length
  size_lt    : content.length < 2 ^ 64
  length_buf : ∀ offset buf state, (s.readAt offset buf state).buf.length = buf.length
  outOfRange : ∀ {offset} buf state, content.length < offset →
    (s.readAt offset buf state).result = .err (.outOfRange offset content.length)
  inRange    : ∀ {offset} buf state, offset ≤ content.length →
    ∃ n, (s.readAt offset buf state).result = .ok n ∧
      (s.readAt offset buf state).buf.take n = subslice content offset n ∧
      n ≤ min buf.length (content.length - offset) ∧
      (0 < min buf.length (content.length - offset) → 0 < n)

-- No read changes what lies behind the end of the source.
def Clamped (s : Impl σ) (content : Bytes) : Prop :=
  ∀ offset buf state, (s.readAt offset buf state).buf.drop (content.length - offset) =
    buf.drop (content.length - offset)

-- What the loop is to make of the rest of the buffer, and what it is to return.
structure FillsRest (s : Impl σ) (content : Bytes) (wanted offset : ℕ) (rest : Bytes)
    (out : Filled SourceError σ Unit) : Prop where
  length_buf : out.buf.length = rest.length
  front      : out.buf.take (content.length - offset) = subslice content offset rest.length
  back       : s.Clamped content →
    out.buf.drop (content.length - offset) = rest.drop (content.length - offset)
  ok         : offset + rest.length ≤ content.length → out.result = .ok ()
  shortRead  : content.length < offset + rest.length → out.result =
    .err (.shortRead content.length wanted (wanted - (rest.length - (content.length - offset))))

namespace FillsRest

variable {s : Impl σ} {content rest rest' buf : Bytes} {wanted offset n : ℕ} {state : σ}
variable {out tail : Filled SourceError σ Unit}

theorem nil (ho : offset ≤ content.length) :
    s.FillsRest content wanted offset [] { result := .ok (), buf := [], state } where
  length_buf  := rfl
  front       := by rw [List.take_nil, List.length_nil, subslice_len_zero]
  back _      := rfl
  ok _        := rfl
  shortRead h := absurd ho (Nat.not_le.mpr h)

theorem atEnd (h₀ : rest ≠ []) (hl : buf.length = rest.length) (hk : s.Clamped content → buf = rest) :
    s.FillsRest content wanted content.length rest
      { result := .err (.shortRead content.length wanted (wanted - rest.length)), buf, state } where
  length_buf  := hl
  front       := by rw [Nat.sub_self, List.take_zero, subslice, List.drop_length, List.take_nil]
  back h      := by rw [hk h]
  ok h        := absurd (List.length_pos_iff.mpr h₀) (by omega)
  shortRead _ := by rw [Nat.sub_self, Nat.sub_zero]

-- A piece of the source in front of what the turns after it make of the rest.
theorem prepend (h : s.FillsRest content wanted (offset + n) rest' tail) (hl : n + rest'.length = rest.length)
    (hle : offset + n ≤ content.length)
    (hk : s.Clamped content →
      rest'.drop (content.length - (offset + n)) = rest.drop (content.length - offset))
    (hr : out.result = tail.result) (hb : out.buf = subslice content offset n ++ tail.buf) :
    s.FillsRest content wanted offset rest out := by
  have hs : (subslice content offset n).length = n := length_subslice_of_le hle
  have hd : content.length - offset = n + (content.length - (offset + n)) := by omega
  constructor
  case length_buf => rw [hb, List.length_append, hs, h.length_buf, hl]
  case front =>
    rw [hb, hd, List.take_append, hs, Nat.add_sub_cancel_left, h.front, List.take_of_length_le (by omega),
      subslice_append_subslice, hl]
  case back =>
    intro hc
    rw [← hk hc, ← h.back hc, hb, hd, List.drop_append, List.drop_eq_nil_of_le (by omega), List.nil_append, hs,
      Nat.add_sub_cancel_left]
  case ok => exact fun hle => hr.trans (h.ok (by omega))
  case shortRead =>
    intro hlt
    rw [hr, h.shortRead (by omega)]
    congr 2
    omega

end FillsRest

namespace Conforming

variable [OverflowChecks] {s : Impl σ} {content rest : Bytes} {wanted fuel offset : ℕ}

-- What one turn of the loop does: it is at the end of the source, or it moves on by some `n` and leaves a
-- shorter rest of the buffer to the turns after it.
theorem go_step (hc : s.Conforming content) (wanted fuel : ℕ) (state : σ) (ho : offset ≤ content.length)
    (h₀ : rest ≠ []) :
    (offset = content.length ∧ ∃ buf state', buf.length = rest.length ∧ (s.Clamped content → buf = rest) ∧
      readExactAt.go s wanted (fuel + 1) offset rest state =
        { result := .err (.shortRead offset wanted (wanted - rest.length)), buf, state := state' }) ∨
    ∃ n rest' state', 0 < n ∧ n + rest'.length = rest.length ∧ offset + n ≤ content.length ∧
      (s.Clamped content →
        rest'.drop (content.length - (offset + n)) = rest.drop (content.length - offset)) ∧
      (readExactAt.go s wanted (fuel + 1) offset rest state).result =
        (readExactAt.go s wanted fuel (offset + n) rest' state').result ∧
      (readExactAt.go s wanted (fuel + 1) offset rest state).buf =
        subslice content offset n ++ (readExactAt.go s wanted fuel (offset + n) rest' state').buf := by
  obtain _ | ⟨b, rest⟩ := rest
  case nil => exact absurd rfl h₀
  case cons =>
    have ⟨n, hr, hb, hn, hp⟩ := hc.inRange (b :: rest) state ho
    have hl := hc.length_buf offset (b :: rest) state
    rw [List.length_cons] at hn hp hl
    rw [readExactAt.go, Filled.bind_ok hr]
    by_cases hz : n = 0
    case pos =>
      have he : offset = content.length := by omega
      refine .inl ⟨he, (s.readAt offset (b :: rest) state).buf, _, hl, fun hk => ?_, by rw [if_pos hz]; rfl⟩
      have hd := hk offset (b :: rest) state
      rwa [he, Nat.sub_self, List.drop_zero, List.drop_zero, ← he] at hd
    case neg =>
      have hlt := hc.size_lt
      have hadd : (U64.add offset n : Exec SourceError ℕ) = .ok (offset + n) := U64.add_eq (by omega)
      rw [if_neg hz, if_neg (by omega), Filled.bind_ok hadd]
      have hd : n + ((s.readAt offset (b :: rest) state).buf.drop n).length = rest.length + 1 := by
        rw [List.length_drop]
        omega
      refine .inr ⟨n, (s.readAt offset (b :: rest) state).buf.drop n,
        (s.readAt offset (b :: rest) state).state, by omega, hd, by omega, fun hk => ?_, rfl, by rw [hb]⟩
      rw [List.drop_drop, ← hk offset (b :: rest) state]
      congr 1
      omega

-- The loop fills the rest of the buffer with what the source has left of it, and counts what it fills.
theorem go_run (hc : s.Conforming content) (wanted : ℕ) (state : σ) (hf : rest.length ≤ fuel)
    (ho : offset ≤ content.length) :
    s.FillsRest content wanted offset rest (readExactAt.go s wanted fuel offset rest state) := by
  induction fuel generalizing offset rest state with
  | zero =>
    obtain rfl := List.eq_nil_of_length_eq_zero (Nat.le_zero.mp hf)
    rw [readExactAt.go]
    exact .nil ho
  | succ fuel hi =>
    by_cases h₀ : rest = []
    case pos =>
      subst h₀
      rw [readExactAt.go]
      exact .nil ho
    case neg =>
      rcases hc.go_step wanted fuel state ho h₀ with h | h
      case inl =>
        obtain ⟨rfl, buf, state', hl, hk, hg⟩ := h
        rw [hg]
        exact .atEnd h₀ hl hk
      case inr =>
        obtain ⟨n, rest', state', hn, hl, hle, hk, hr, hb⟩ := h
        have hf' : rest'.length ≤ fuel := by omega
        exact (hi state' hf' hle).prepend hl hle hk hr hb

variable {buf : Bytes} {state : σ}

-- The source refuses the first read that is past its end.
theorem go_outOfRange (hc : s.Conforming content) (hf : rest.length ≤ fuel) (ho : content.length < offset)
    (h₀ : rest ≠ []) : readExactAt.go s wanted fuel offset rest state =
      { s.readAt offset rest state with result := .err (.outOfRange offset content.length) } := by
  have hpos := List.length_pos_iff.mpr h₀
  obtain ⟨fuel, rfl⟩ := Nat.exists_eq_succ_of_ne_zero (show fuel ≠ 0 by omega)
  obtain _ | ⟨b, rest⟩ := rest
  case nil  => exact absurd rfl h₀
  case cons => rw [readExactAt.go, Filled.bind_err (hc.outOfRange _ _ ho)]

theorem readExactAt_result (hc : s.Conforming content) :
    (s.readExactAt offset buf state).result = Source.exactResult content offset buf.length := by
  rw [Source.exactResult, readExactAt]
  by_cases h₀ : buf = []
  case pos =>
    subst h₀
    rw [if_pos (.inl rfl), List.length_nil, readExactAt.go]
  case neg =>
    have hpos := List.length_pos_iff.mpr h₀
    by_cases ho : offset ≤ content.length
    case pos =>
      have h := hc.go_run buf.length state (Nat.le_refl buf.length) ho
      by_cases hle : offset + buf.length ≤ content.length
      case pos => rw [h.ok hle, if_pos (.inr hle)]
      case neg =>
        rw [h.shortRead (Nat.lt_of_not_le hle), if_neg (by omega), if_pos ho]
        congr 2
        omega
    case neg =>
      rw [hc.go_outOfRange (Nat.le_refl _) (Nat.lt_of_not_le ho) h₀, if_neg (by omega), if_neg ho]

theorem readExactAt_eq_ok_iff (hc : s.Conforming content) :
    (s.readExactAt offset buf state).result = .ok () ↔ buf = [] ∨ offset + buf.length ≤ content.length := by
  rw [hc.readExactAt_result, Source.exactResult]
  split
  case isTrue h => simpa [List.length_eq_zero_iff] using h
  case isFalse h =>
    rw [List.length_eq_zero_iff] at h
    split <;> simpa using h

theorem length_readExactAt (hc : s.Conforming content) :
    (s.readExactAt offset buf state).buf.length = buf.length := by
  by_cases ho : offset ≤ content.length
  case pos => exact (hc.go_run buf.length state (Nat.le_refl _) ho).length_buf
  case neg =>
    by_cases h₀ : buf = []
    case pos =>
      subst h₀
      rw [readExactAt, List.length_nil, readExactAt.go, List.length_nil]
    case neg =>
      rw [readExactAt, hc.go_outOfRange (Nat.le_refl _) (Nat.lt_of_not_le ho) h₀]
      exact hc.length_buf offset buf state

-- The bytes of the buffer for which the source has content.
theorem take_readExactAt (hc : s.Conforming content) (ho : offset ≤ content.length) :
    (s.readExactAt offset buf state).buf.take (content.length - offset) = subslice content offset buf.length :=
  (hc.go_run buf.length state (Nat.le_refl _) ho).front

-- Where no read changes anything behind the end of the source, the whole buffer is known, also after an
-- error.
theorem buf_readExactAt (hc : s.Conforming content) (hk : s.Clamped content) :
    (s.readExactAt offset buf state).buf =
      subslice content offset buf.length ++ buf.drop (content.length - offset) := by
  by_cases ho : offset ≤ content.length
  case pos =>
    have h := hc.go_run buf.length state (Nat.le_refl buf.length) ho
    rw [← h.front, ← h.back hk, readExactAt, List.take_append_drop]
  case neg =>
    have hz : content.length - offset = 0 := by omega
    have hs : subslice content offset buf.length = [] := by
      rw [subslice, List.drop_eq_nil_of_le (by omega), List.take_nil]
    rw [hs, hz, List.nil_append, List.drop_zero]
    by_cases h₀ : buf = []
    case pos =>
      subst h₀
      rw [readExactAt, List.length_nil, readExactAt.go]
    case neg =>
      have hb := hk offset buf state
      rw [hz, List.drop_zero, List.drop_zero] at hb
      rw [readExactAt, hc.go_outOfRange (Nat.le_refl _) (Nat.lt_of_not_le ho) h₀, hb]

theorem readsExactly (hc : s.Conforming content) (offset : ℕ) (buf : Bytes) (state : σ) :
    Source.ReadsExactly content offset buf (s.readExactAt offset buf state) where
  returns := by
    rw [hc.readExactAt_result, Source.exactResult]
    split
    case isTrue  => nofun
    case isFalse => split <;> nofun
  length_buf := hc.length_readExactAt
  ok_iff     := hc.readExactAt_eq_ok_iff
  filled h := by
    have hl : (s.readExactAt offset buf state).buf.length = buf.length := hc.length_readExactAt
    rcases hc.readExactAt_eq_ok_iff.mp h with rfl | hle
    · rw [List.length_nil, subslice_len_zero]
      exact List.eq_nil_of_length_eq_zero hl
    · have hk : (s.readExactAt offset buf state).buf.length ≤ content.length - offset := by omega
      rw [← hc.take_readExactAt (Nat.le_of_add_right_le hle), List.take_of_length_le hk]
  shortRead ho h := by
    rw [hc.readExactAt_result, Source.exactResult, if_neg (by omega), if_pos ho, hc.take_readExactAt ho]
    refine ⟨rfl, ?_⟩
    rw [← subslice_min, Nat.min_eq_right (by omega)]
  outOfRange ho h₀ := by
    have hpos := List.length_pos_iff.mpr h₀
    rw [hc.readExactAt_result, Source.exactResult, if_neg (by omega), if_neg (by omega)]

end Conforming
end Source.Impl

namespace Source

-- A source whose reads depend on nothing but their arguments puts its bytes into the front of the buffer.
def toImpl (s : Source) : Impl Unit where
  size := s.size
  readAt offset buf state :=
    Filled.bind { result := s.readAt offset buf.length, buf, state } fun bytes =>
      { result := .ok bytes.length, buf := put buf 0 bytes, state }

variable [OverflowChecks] {s : Source} {bytes : Bytes}

theorem toImpl_go (s : Source) (wanted fuel offset : ℕ) (rest : Bytes) :
    (Impl.readExactAt.go s.toImpl wanted fuel offset rest ()).result =
      (readExactAt.go s wanted fuel offset rest.length >>= fun _ => .ok ()) ∧
    ∀ bytes, readExactAt.go s wanted fuel offset rest.length = .ok bytes →
      (Impl.readExactAt.go s.toImpl wanted fuel offset rest ()).buf = bytes := by
  induction fuel generalizing offset rest with
  | zero => cases rest <;> simp [Impl.readExactAt.go, readExactAt.go]
  | succ fuel hi =>
    obtain _ | ⟨b, rest⟩ := rest
    case nil => simp [Impl.readExactAt.go, readExactAt.go]
    case cons =>
      simp only [Impl.readExactAt.go, List.length_cons, readExactAt.go, toImpl]
      cases hr : s.readAt offset (rest.length + 1) with
      | err e => simp [Filled.bind]
      | panic => simp [Filled.bind]
      | ok bytes =>
        simp only [Filled.bind, Exec.ok_bind]
        split
        case isTrue => simp
        case isFalse h₀ =>
          split
          case isTrue => simp
          case isFalse hle =>
            have hp : put (b :: rest) 0 bytes = bytes ++ (b :: rest).drop bytes.length := by
              rw [put, List.take_zero, List.nil_append, Nat.zero_add]
            have hl : ((b :: rest).drop bytes.length).length = rest.length + 1 - bytes.length := by
              rw [List.length_drop, List.length_cons]
            rw [hp, List.drop_left, List.take_left, ← hl]
            cases ha : (U64.add offset bytes.length : Exec SourceError ℕ) with
            | err e => simp
            | panic => simp
            | ok offset' =>
              obtain ⟨hres, hbuf⟩ := hi offset' ((b :: rest).drop bytes.length)
              simp only [Exec.ok_bind, bind_assoc]
              refine ⟨hres, fun all h => ?_⟩
              obtain ⟨tail, ht, he⟩ := Exec.bind_eq_ok.mp h
              exact (congrArg (bytes ++ ·) (hbuf tail ht)).trans (Exec.ok.inj he)

-- The loop on the buffer is the loop that returns the bytes.
theorem readExactAt_toImpl (s : Source) (offset : ℕ) (buf : Bytes) :
    (s.toImpl.readExactAt offset buf ()).result = (s.readExactAt offset buf.length >>= fun _ => .ok ()) ∧
    ∀ bytes, s.readExactAt offset buf.length = .ok bytes → (s.toImpl.readExactAt offset buf ()).buf = bytes :=
  s.toImpl_go buf.length buf.length offset buf

end Source

-- One positioned read of a file, into the caller's buffer.
abbrev Pread (σ : Type) :=
  (offset : ℕ) → (buf : Bytes) → σ → Filled String σ ℕ

-- The reads of a regular file on which no read fails: they may be short, and are so as they like, but not
-- empty before the end.
def Pread.Reads {σ : Type} (pread : Pread σ) (content : Bytes) : Prop :=
  ∀ offset buf state, buf ≠ [] → offset + buf.length ≤ content.length →
    (pread offset buf state).buf.length = buf.length ∧
    ∃ n, 0 < n ∧ n ≤ buf.length ∧ (pread offset buf state).result = .ok n ∧
      (pread offset buf state).buf.take n = subslice content offset n

-- The reads of a file of which each depends on nothing but its arguments.
def File.preadInto (f : File) : Pread Unit := fun offset buf state =>
  Filled.bind { result := f.pread offset buf.length, buf, state } fun bytes =>
    { result := .ok bytes.length, buf := put buf 0 bytes, state }

theorem File.Readable.exists_preadInto {f : File} (h : f.Readable) (offset : ℕ) {buf : Bytes} (h₀ : buf ≠ [])
    (hle : offset + buf.length ≤ f.bytes.length) : ∃ n, 0 < n ∧ n ≤ buf.length ∧
      f.pread offset buf.length = .ok (subslice f.bytes offset n) ∧ f.preadInto offset buf () =
        { result := .ok n, buf := put buf 0 (subslice f.bytes offset n), state := () } := by
  have ⟨n, hn, hnl, hp⟩ := h.pread offset buf.length (List.length_pos_iff.mpr h₀) hle
  have hl : (subslice f.bytes offset n).length = n := length_subslice_of_le (by omega)
  refine ⟨n, hn, hnl, hp, ?_⟩
  simp only [preadInto, Filled.bind, hp, hl]

theorem File.Readable.preadInto_reads {f : File} (h : f.Readable) : f.preadInto.Reads f.bytes := by
  intro offset buf _ h₀ hle
  have ⟨n, hn, hnl, _, hr⟩ := h.exists_preadInto offset h₀ hle
  have hl : (subslice f.bytes offset n).length = n := length_subslice_of_le (by omega)
  rw [hr]
  refine ⟨length_put (by omega), n, hn, hnl, rfl, ?_⟩
  rw [put_zero, List.take_append_of_le_length (Nat.le_of_eq hl.symm), List.take_of_length_le (Nat.le_of_eq hl)]

namespace RawSource

variable {σ : Type}

-- `read_at` on the caller's buffer, over the positioned reads of the system.
def readInto (s : RawSource) (pread : Pread σ) (offset : ℕ) (buf : Bytes) (state : σ) :
    Filled SourceError σ ℕ :=
  if s.size < offset then
    { result := .err (.outOfRange offset s.size), buf, state }
  else
    let n := min buf.length (s.size - offset)
    if n = 0 then
      { result := .ok 0, buf, state }
    else match s.backing with
      | .mapped m     =>
        Filled.bind { result := slice m offset (offset + n), buf, state } fun bytes =>
          { result := .ok n, buf := put buf 0 bytes, state }
      | .positioned _ =>
        let read := pread offset (buf.take n) state
        { read with result := read.result.mapErr (.io s.identity.path), buf := put buf 0 read.buf }
      | .empty        => { result := .ok 0, buf, state }

def impl (s : RawSource) (pread : Pread σ) : Source.Impl σ where
  size   := s.size
  readAt := s.readInto pread

@[simp] theorem impl_readAt (s : RawSource) (pread : Pread σ) : (s.impl pread).readAt = s.readInto pread :=
  rfl

variable {path : String} {file : File} {pread : Pread σ} {mapped : Bool} {offset : ℕ} {buf : Bytes} {state : σ}

theorem backing_open (path : String) (mapped : Bool) (h₀ : file.bytes.length ≠ 0) :
    (RawSource.open path file mapped).backing = if mapped then .mapped file.bytes else .positioned file :=
  if_neg h₀

theorem readInto_outOfRange (ho : file.bytes.length < offset) :
    (RawSource.open path file mapped).readInto pread offset buf state =
      { result := .err (.outOfRange offset file.bytes.length), buf, state } :=
  if_pos ho

theorem readInto_nothing (ho : offset ≤ file.bytes.length)
    (hn : min buf.length (file.bytes.length - offset) = 0) :
    (RawSource.open path file mapped).readInto pread offset buf state = { result := .ok 0, buf, state } :=
  (if_neg (Nat.not_lt.mpr ho)).trans (if_pos hn)

section

-- The bytes that fit into the buffer and that the file still has.
variable {room : ℕ} (hr : min buf.length (file.bytes.length - offset) = room) (h₀ : 0 < room)

include hr h₀

theorem readInto_mapped : (RawSource.open path file true).readInto pread offset buf state =
    { result := .ok room, buf := put buf 0 (subslice file.bytes offset room), state } := by
  have hs : (slice file.bytes offset (offset + room) : Exec SourceError Bytes) =
      .ok (subslice file.bytes offset room) := by
    rw [slice_eq (by omega) (by omega), Nat.add_sub_cancel_left]
  subst hr
  refine (if_neg (show ¬file.bytes.length < offset by omega)).trans <| (if_neg (Nat.ne_of_gt h₀)).trans ?_
  rw [backing_open path true (by omega)]
  exact Filled.bind_ok hs

theorem readInto_positioned : (RawSource.open path file false).readInto pread offset buf state =
    let read := pread offset (buf.take room) state
    { read with result := read.result.mapErr (.io path), buf := put buf 0 read.buf } := by
  subst hr
  refine (if_neg (show ¬file.bytes.length < offset by omega)).trans <| (if_neg (Nat.ne_of_gt h₀)).trans ?_
  rw [backing_open path false (by omega)]
  rfl

-- Both backings put as many bytes into the buffer as they count, and leave what is behind the end alone.
theorem exists_readInto (path : String) (state : σ) (h : mapped ∨ pread.Reads file.bytes) :
    ∃ n bytes state', 0 < n ∧ n ≤ bytes.length ∧ bytes.length = room ∧
      bytes.take n = subslice file.bytes offset n ∧
      (RawSource.open path file mapped).readInto pread offset buf state =
        { result := .ok n, buf := put buf 0 bytes, state := state' } := by
  cases mapped
  case true =>
    have hl : (subslice file.bytes offset room).length = room := length_subslice_of_le (by omega)
    exact ⟨room, _, state, h₀, Nat.le_of_eq hl.symm, hl, List.take_of_length_le (Nat.le_of_eq hl),
      readInto_mapped hr h₀⟩
  case false =>
    have hp : pread.Reads file.bytes := by simpa using h
    have ht : (buf.take room).length = room := List.length_take_of_le (by omega)
    have hne : buf.take room ≠ [] := List.length_pos_iff.mp (by omega)
    have ⟨hl, n, hn, hle, hok, hb⟩ := hp offset (buf.take room) state hne (by omega)
    refine ⟨n, (pread offset (buf.take room) state).buf, (pread offset (buf.take room) state).state, hn,
      by omega, hl.trans ht, hb, ?_⟩
    rw [readInto_positioned hr h₀]
    simp only [hok, Exec.mapErr_ok]

end

-- A read past the end, one that has nothing to read, and any other one.
theorem readInto_cases (path : String) (h : mapped ∨ pread.Reads file.bytes) (offset : ℕ) (buf : Bytes)
    (state : σ) :
    (file.bytes.length < offset ∧ (RawSource.open path file mapped).readInto pread offset buf state =
      { result := .err (.outOfRange offset file.bytes.length), buf, state }) ∨
    (offset ≤ file.bytes.length ∧ min buf.length (file.bytes.length - offset) = 0 ∧
      (RawSource.open path file mapped).readInto pread offset buf state = { result := .ok 0, buf, state }) ∨
    (offset ≤ file.bytes.length ∧ ∃ n bytes state', 0 < n ∧ n ≤ bytes.length ∧
      bytes.length = min buf.length (file.bytes.length - offset) ∧
      bytes.take n = subslice file.bytes offset n ∧
      (RawSource.open path file mapped).readInto pread offset buf state =
        { result := .ok n, buf := put buf 0 bytes, state := state' }) := by
  by_cases ho : file.bytes.length < offset
  case pos => exact .inl ⟨ho, readInto_outOfRange ho⟩
  case neg =>
    have hle := Nat.le_of_not_lt ho
    by_cases hn : min buf.length (file.bytes.length - offset) = 0
    case pos => exact .inr <| .inl ⟨hle, hn, readInto_nothing hle hn⟩
    case neg => exact .inr <| .inr ⟨hle, exists_readInto rfl (Nat.pos_of_ne_zero hn) path state h⟩

theorem impl_conforming (hlt : file.bytes.length < 2 ^ 64) (h : mapped ∨ pread.Reads file.bytes) :
    ((RawSource.open path file mapped).impl pread).Conforming file.bytes where
  size_eq := rfl
  size_lt := hlt
  length_buf offset buf state := by
    rcases readInto_cases path h offset buf state with ⟨_, hr⟩ | ⟨_, _, hr⟩ | ⟨_, n, bytes, _, _, _, hl, _, hr⟩
    · rw [impl_readAt, hr]
    · rw [impl_readAt, hr]
    · rw [impl_readAt, hr, length_put (by omega)]
  outOfRange := by
    intro offset buf state ho
    rcases readInto_cases path h offset buf state with ⟨_, hr⟩ | ⟨_, _, _⟩ | ⟨_, _⟩
    · rw [impl_readAt, hr]
    · omega
    · omega
  inRange := by
    intro offset buf state ho
    rcases readInto_cases path h offset buf state with ⟨_, _⟩ | ⟨_, hn, hr⟩ | ⟨_, n, bytes, _, h₀, hle, hl, hb, hr⟩
    · omega
    · exact ⟨0, by rw [impl_readAt, hr], by rw [List.take_zero, subslice_len_zero], Nat.zero_le _, by omega⟩
    · refine ⟨n, by rw [impl_readAt, hr], ?_, by omega, fun _ => h₀⟩
      rw [impl_readAt, hr, put, List.take_zero, List.nil_append, List.take_append_of_le_length hle, hb]

theorem impl_clamped (h : mapped ∨ pread.Reads file.bytes) :
    ((RawSource.open path file mapped).impl pread).Clamped file.bytes := by
  intro offset buf state
  rcases readInto_cases path h offset buf state with ⟨_, hr⟩ | ⟨_, _, hr⟩ | ⟨_, n, bytes, _, _, _, hl, _, hr⟩
  · rw [impl_readAt, hr]
  · rw [impl_readAt, hr]
  · rw [impl_readAt, hr, put, List.take_zero, List.nil_append, Nat.zero_add, List.drop_append,
      List.drop_eq_nil_of_le (by omega), List.nil_append, List.drop_drop]
    by_cases hb : buf.length ≤ file.bytes.length - offset
    case pos => rw [List.drop_eq_nil_of_le (by omega), List.drop_eq_nil_of_le hb]
    case neg =>
      congr 1
      omega

section

variable {bytes : Bytes}

theorem toImpl_readAt_ok (h : (RawSource.open path file mapped).readAt offset buf.length = .ok bytes) :
    (RawSource.open path file mapped).toSource.toImpl.readAt offset buf () =
      { result := .ok bytes.length, buf := put buf 0 bytes, state := () } :=
  Filled.bind_ok h

theorem readAt_room {room : ℕ} (path : String) (hr : min buf.length (file.bytes.length - offset) = room)
    (h₀ : 0 < room) :
    (RawSource.open path file true).readAt offset buf.length = .ok (subslice file.bytes offset room) ∧
    (RawSource.open path file false).readAt offset buf.length = (file.pread offset room).mapErr (.io path) := by
  subst hr
  have hne : file.bytes.length ≠ 0 := by omega
  have ho : ¬file.bytes.length < offset := by omega
  constructor
  · refine (if_neg ho).trans <| (if_neg (Nat.ne_of_gt h₀)).trans ?_
    rw [backing_open path true hne]
    simp only [RawSource.open, if_true]
    rw [slice_eq (by omega) (by omega), Nat.add_sub_cancel_left]
  · refine (if_neg ho).trans <| (if_neg (Nat.ne_of_gt h₀)).trans ?_
    rw [backing_open path false hne]
    rfl

-- On a file whose reads do not fail the source puts into the buffer what `readAt` returns.
theorem impl_preadInto (h : file.Readable) :
    ((RawSource.open path file mapped).impl file.preadInto).readAt =
      (RawSource.open path file mapped).toSource.toImpl.readAt := by
  funext offset buf state
  rw [impl_readAt]
  by_cases ho : file.bytes.length < offset
  case pos =>
    have hr : (RawSource.open path file mapped).readAt offset buf.length =
        .err (.outOfRange offset file.bytes.length) := if_pos ho
    rw [readInto_outOfRange ho]
    exact .symm <| Filled.bind_err (x := { result := _, buf, state }) hr
  case neg =>
    by_cases hn : min buf.length (file.bytes.length - offset) = 0
    case pos =>
      have hr : (RawSource.open path file mapped).readAt offset buf.length = .ok [] :=
        (if_neg ho).trans (if_pos hn)
      rw [readInto_nothing (Nat.le_of_not_lt ho) hn, toImpl_readAt_ok hr, put, List.take_zero,
        List.length_nil, Nat.zero_add, List.drop_zero, List.nil_append, List.nil_append]
    case neg =>
      have h₀ := Nat.pos_of_ne_zero hn
      obtain ⟨hm, hp⟩ := readAt_room path rfl h₀
      cases mapped
      case true =>
        rw [readInto_mapped rfl h₀, toImpl_readAt_ok hm, length_subslice_of_le (by omega)]
      case false =>
        have ht : (buf.take (min buf.length (file.bytes.length - offset))).length =
            min buf.length (file.bytes.length - offset) := List.length_take_of_le (Nat.min_le_left _ _)
        have hne : buf.take (min buf.length (file.bytes.length - offset)) ≠ [] :=
          List.length_pos_iff.mp (by omega)
        obtain ⟨n, _, hnl, hok, hr⟩ := h.exists_preadInto offset hne (by omega)
        have hl : (subslice file.bytes offset n).length = n := length_subslice_of_le (by omega)
        rw [ht] at hok
        rw [hok, Exec.mapErr_ok] at hp
        rw [readInto_positioned rfl h₀, toImpl_readAt_ok hp]
        simp only [hr, Exec.mapErr_ok, hl]
        rw [put_put_take (by omega) (Nat.min_le_left _ _)]

end

end RawSource

namespace Source.Impl

section

variable [OverflowChecks]

-- Whatever the schedule of short reads is, the outcome is the one that the content, the offset and the
-- buffer say. So it does not matter if a file is mapped or read by position.
theorem readExactAt_scheduleIndependent :
    (∀ (σ : Type) (s : Impl σ) (content : Bytes), s.Conforming content → ∀ offset buf state,
      ReadsExactly content offset buf (s.readExactAt offset buf state)) ∧
    ∀ (σ τ : Type) (path : String) (file : File) (pread : Pread σ) (pread' : Pread τ),
      file.bytes.length < 2 ^ 64 → pread'.Reads file.bytes → ∀ offset buf state state',
        (((RawSource.open path file true).impl pread).readExactAt offset buf state).result =
          (((RawSource.openPositioned path file).impl pread').readExactAt offset buf state').result ∧
        (((RawSource.open path file true).impl pread).readExactAt offset buf state).buf =
          (((RawSource.openPositioned path file).impl pread').readExactAt offset buf state').buf := by
  refine ⟨fun _ _ _ hc => hc.readsExactly, fun _ _ path file pread pread' hlt hp offset buf state state' => ?_⟩
  have hm : ((RawSource.open path file true).impl pread).Conforming file.bytes :=
    RawSource.impl_conforming hlt (.inl rfl)
  have hq : ((RawSource.openPositioned path file).impl pread').Conforming file.bytes :=
    RawSource.impl_conforming hlt (.inr hp)
  rw [hm.readExactAt_result, hq.readExactAt_result, hm.buf_readExactAt (RawSource.impl_clamped (.inl rfl)),
    hq.buf_readExactAt (RawSource.impl_clamped (.inr hp))]
  exact ⟨rfl, rfl⟩

end

-- Positioned reads of which each may be a byte longer than the one before it.
def dripping (content : Bytes) : Pread ℕ := fun offset buf turn =>
  let bytes := subslice content offset (min buf.length (turn + 1))
  { result := .ok bytes.length, buf := put buf 0 bytes, state := turn + 1 }

theorem dripping_reads (content : Bytes) : (dripping content).Reads content := by
  intro offset buf turn h₀ hle
  have hpos := List.length_pos_iff.mpr h₀
  have hl : (subslice content offset (min buf.length (turn + 1))).length = min buf.length (turn + 1) :=
    length_subslice_of_le (by omega)
  refine ⟨length_put (by omega), min buf.length (turn + 1), by omega, Nat.min_le_left _ _, ?_, ?_⟩
  · simp only [dripping, hl]
  · simp only [dripping, put_zero]
    rw [List.take_append_of_le_length (by omega), List.take_of_length_le (by omega)]

attribute [local instance] OverflowChecks.on

-- Four bytes, of which ten are asked for at offset 1.
theorem readExactAt_scheduleIndependent_dripping :
    let file : File :=
      { bytes := [1, 2, 3, 4], pread := fun offset len => .ok (subslice [1, 2, 3, 4] offset len) }
    let mapped := (RawSource.open "" file true).impl file.preadInto
    let positioned := (RawSource.openPositioned "" file).impl (dripping [1, 2, 3, 4])
    let buf := List.replicate 10 0
    ReadsExactly [1, 2, 3, 4] 1 buf (positioned.readExactAt 1 buf 0) ∧
    (mapped.readExactAt 1 buf ()).result = (positioned.readExactAt 1 buf 0).result ∧
    (mapped.readExactAt 1 buf ()).buf = (positioned.readExactAt 1 buf 0).buf ∧
    (positioned.readExactAt 1 buf 0).result = .err (.shortRead 4 10 3) := by
  intro file mapped positioned buf
  have hlt : file.bytes.length < 2 ^ 64 := by decide
  have hp : (dripping [1, 2, 3, 4]).Reads file.bytes := dripping_reads [1, 2, 3, 4]
  have hc : positioned.Conforming file.bytes := RawSource.impl_conforming hlt (.inr hp)
  have he := readExactAt_scheduleIndependent.1 ℕ positioned file.bytes hc 1 buf 0
  have ⟨hr, hb⟩ := readExactAt_scheduleIndependent.2 Unit ℕ "" file file.preadInto _ hlt hp 1 buf () 0
  exact ⟨he, hr, hb, (he.shortRead (by decide) (by decide)).1⟩

end Source.Impl
end Latent
