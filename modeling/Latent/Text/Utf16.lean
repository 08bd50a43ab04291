import Latent.Text.Utf8

namespace Text

-- One code unit, or the surrogate pair of a character beyond the first 2¹⁶.
def encodeUtf16Char (c : Char) : List ℕ :=
  if c.toNat < 0x10000 then [c.toNat]
  else [0xD800 + (c.toNat - 0x10000) / 0x400, 0xDC00 + (c.toNat - 0x10000) % 0x400]

def encodeUtf16 (s : List Char) : List ℕ :=
  s.flatMap encodeUtf16Char

def isSurrogate (u : ℕ) : Bool :=
  0xD800 ≤ u && u < 0xE000

def isLowSurrogate (u : ℕ) : Bool :=
  0xDC00 ≤ u && u < 0xE000

-- `String::from_utf16_lossy`: every surrogate without its other half becomes one replacement.
def fromUtf16Lossy : List ℕ → List Char
  | []     => []
  | u :: l =>
    if !isSurrogate u then
      Char.ofNat u :: fromUtf16Lossy l
    else if isLowSurrogate u then
      replacement :: fromUtf16Lossy l
    else match l with
      | []      => [replacement]
      | v :: l' =>
        if isLowSurrogate v then
          Char.ofNat (0x10000 + (u - 0xD800) * 0x400 + (v - 0xDC00)) :: fromUtf16Lossy l'
        else
          replacement :: fromUtf16Lossy (v :: l')

theorem fromUtf16Lossy_encode_append (c : Char) (l : List ℕ) :
    fromUtf16Lossy (encodeUtf16Char c ++ l) = c :: fromUtf16Lossy l := by
  have hv : c.toNat < 0xD800 ∨ 0xDFFF < c.toNat ∧ c.toNat < 0x110000 := c.valid
  by_cases hc : c.toNat < 0x10000
  case pos =>
    have hs : isSurrogate c.toNat = false := by
      simp only [isSurrogate, Bool.and_eq_false_iff, decide_eq_false_iff_not]
      omega
    simp only [encodeUtf16Char, if_pos hc, List.cons_append, List.nil_append]
    rw [fromUtf16Lossy.eq_def]
    simp [hs]
  case neg =>
    have h₁ : isSurrogate (0xD800 + (c.toNat - 0x10000) / 0x400) = true := by
      simp only [isSurrogate, Bool.and_eq_true, decide_eq_true_eq]
      omega
    have h₂ : isLowSurrogate (0xD800 + (c.toNat - 0x10000) / 0x400) = false := by
      simp only [isLowSurrogate, Bool.and_eq_false_iff, decide_eq_false_iff_not]
      omega
    have h₃ : isLowSurrogate (0xDC00 + (c.toNat - 0x10000) % 0x400) = true := by
      simp only [isLowSurrogate, Bool.and_eq_true, decide_eq_true_eq]
      omega
    have hn : 0x10000 + (0xD800 + (c.toNat - 0x10000) / 0x400 - 0xD800) * 0x400 +
        (0xDC00 + (c.toNat - 0x10000) % 0x400 - 0xDC00) = c.toNat := by omega
    simp only [encodeUtf16Char, if_neg hc, List.cons_append, List.nil_append, fromUtf16Lossy, h₁, h₂, h₃,
      Bool.not_true, Bool.false_eq_true, if_false, if_true, hn, Char.ofNat_toNat]

-- Decoding undoes encoding.
theorem fromUtf16Lossy_encodeUtf16 (s : List Char) : fromUtf16Lossy (encodeUtf16 s) = s := by
  induction s with
  | nil => rfl
  | cons c s hi =>
    rw [encodeUtf16, List.flatMap_cons, fromUtf16Lossy_encode_append]
    exact congrArg (c :: ·) hi

theorem encodeUtf16Char_ne_nil (c : Char) : encodeUtf16Char c ≠ [] := by
  simp only [encodeUtf16Char]
  split <;> simp

theorem encodeUtf16_eq_nil_iff {s : List Char} : encodeUtf16 s = [] ↔ s = [] := by
  cases s <;> simp [encodeUtf16, encodeUtf16Char_ne_nil]

theorem mem_encodeUtf16_bounds {s : List Char} {u : ℕ} (h : u ∈ encodeUtf16 s) :
    u < 0x10000 ∧ (u = 0 → ∃ c ∈ s, c.toNat = 0) := by
  have ⟨c, hs, hu⟩ := List.mem_flatMap.mp h
  have hv : c.toNat < 0xD800 ∨ 0xDFFF < c.toNat ∧ c.toNat < 0x110000 := c.valid
  simp only [encodeUtf16Char] at hu
  split at hu
  case isTrue hc =>
    rw [List.mem_singleton] at hu
    exact ⟨by omega, fun h₀ => ⟨c, hs, by omega⟩⟩
  case isFalse hc =>
    simp only [List.mem_cons, List.not_mem_nil, or_false] at hu
    exact ⟨by omega, fun h₀ => by omega⟩

end Text
