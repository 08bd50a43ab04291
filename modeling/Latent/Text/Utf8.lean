import Latent.Bytes.Endian

namespace Text

-- U+FFFD, which stands for a run of bytes that is not text.
def replacement : Char :=
  Char.ofNat 0xFFFD

def isContinuation (b : UInt8) : Bool :=
  0x80 ≤ b && b < 0xC0

-- The second byte of a three-byte and of a four-byte sequence, where the first one restricts it.
def isSecondOfThree (first second : UInt8) : Bool :=
  if first = 0xE0 then 0xA0 ≤ second && second < 0xC0
  else if first = 0xED then 0x80 ≤ second && second < 0xA0
  else isContinuation second

def isSecondOfFour (first second : UInt8) : Bool :=
  if first = 0xF0 then 0x90 ≤ second && second < 0xC0
  else if first = 0xF4 then 0x80 ≤ second && second < 0x90
  else isContinuation second

def decode₂ (a b : UInt8) : Char :=
  Char.ofNat ((a.toNat % 0x20) * 0x40 + b.toNat % 0x40)

def decode₃ (a b c : UInt8) : Char :=
  Char.ofNat (((a.toNat % 0x10) * 0x40 + b.toNat % 0x40) * 0x40 + c.toNat % 0x40)

def decode₄ (a b c d : UInt8) : Char :=
  Char.ofNat
    ((((a.toNat % 0x08) * 0x40 + b.toNat % 0x40) * 0x40 + c.toNat % 0x40) * 0x40 + d.toNat % 0x40)

-- `String::from_utf8_lossy`: every maximal broken prefix of a sequence becomes one replacement.
def fromUtf8Lossy : Bytes → List Char
  | []     => []
  | a :: l =>
    if a < 0x80 then
      Char.ofNat a.toNat :: fromUtf8Lossy l
    else if 0xC2 ≤ a && a < 0xE0 then
      match l with
      | b :: l' => if isContinuation b then decode₂ a b :: fromUtf8Lossy l'
                   else replacement :: fromUtf8Lossy (b :: l')
      | []      => [replacement]
    else if 0xE0 ≤ a && a < 0xF0 then
      match l with
      | b :: l' =>
        if isSecondOfThree a b then
          match l' with
          | c :: l'' => if isContinuation c then decode₃ a b c :: fromUtf8Lossy l''
                        else replacement :: fromUtf8Lossy (c :: l'')
          | []       => [replacement]
        else replacement :: fromUtf8Lossy (b :: l')
      | [] => [replacement]
    else if 0xF0 ≤ a && a < 0xF5 then
      match l with
      | b :: l' =>
        if isSecondOfFour a b then
          match l' with
          | c :: l'' =>
            if isContinuation c then
              match l'' with
              | d :: l''' => if isContinuation d then decode₄ a b c d :: fromUtf8Lossy l'''
                             else replacement :: fromUtf8Lossy (d :: l''')
              | []        => [replacement]
            else replacement :: fromUtf8Lossy (c :: l'')
          | [] => [replacement]
        else replacement :: fromUtf8Lossy (b :: l')
      | [] => [replacement]
    else
      replacement :: fromUtf8Lossy l
termination_by l => l.length

variable {x : UInt8}

theorem isContinuation_of_ascii (h : x < 0x80) : isContinuation x = false := by
  have h : ¬0x80 ≤ x := UInt8.not_le.mpr h
  simp [isContinuation, h]

theorem isSecondOfThree_of_ascii (h : x < 0x80) (first : UInt8) : isSecondOfThree first x = false := by
  have h₁ : ¬0x80 ≤ x := UInt8.not_le.mpr h
  have h₂ : ¬0xA0 ≤ x := UInt8.not_le.mpr (UInt8.lt_trans h (by decide))
  rw [isSecondOfThree]
  split
  case isTrue => simp [h₂]
  case isFalse =>
    split
    case isTrue  => simp [h₁]
    case isFalse => exact isContinuation_of_ascii h

theorem isSecondOfFour_of_ascii (h : x < 0x80) (first : UInt8) : isSecondOfFour first x = false := by
  have h₁ : ¬0x80 ≤ x := UInt8.not_le.mpr h
  have h₂ : ¬0x90 ≤ x := UInt8.not_le.mpr (UInt8.lt_trans h (by decide))
  rw [isSecondOfFour]
  split
  case isTrue => simp [h₂]
  case isFalse =>
    split
    case isTrue  => simp [h₁]
    case isFalse => exact isContinuation_of_ascii h

-- A byte below 0x80 stands for itself and breaks off whatever sequence comes before it.
theorem fromUtf8Lossy_append_ascii (h : x < 0x80) (a b : Bytes) :
    fromUtf8Lossy (a ++ x :: b) = fromUtf8Lossy a ++ Char.ofNat x.toNat :: fromUtf8Lossy b := by
  have hc := isContinuation_of_ascii h
  have h₃ := isSecondOfThree_of_ascii h
  have h₄ := isSecondOfFour_of_ascii h
  have hx : fromUtf8Lossy (x :: b) = Char.ofNat x.toNat :: fromUtf8Lossy b := by
    rw [fromUtf8Lossy.eq_def]
    simp [h]
  fun_induction fromUtf8Lossy a with
  | case1 => exact hx
  | _ =>
    simp only [List.cons_append, List.nil_append]
    rw [fromUtf8Lossy.eq_def]
    grind

end Text
