import Latent.Core.Hash

namespace Sha256Standard

-- SHA-256 itself, for runs on given inputs.
def K : List (BitVec 32) := [
  0x428a2f98, 0x71374491, 0xb5c0fbcf, 0xe9b5dba5, 0x3956c25b, 0x59f111f1, 0x923f82a4, 0xab1c5ed5,
  0xd807aa98, 0x12835b01, 0x243185be, 0x550c7dc3, 0x72be5d74, 0x80deb1fe, 0x9bdc06a7, 0xc19bf174,
  0xe49b69c1, 0xefbe4786, 0x0fc19dc6, 0x240ca1cc, 0x2de92c6f, 0x4a7484aa, 0x5cb0a9dc, 0x76f988da,
  0x983e5152, 0xa831c66d, 0xb00327c8, 0xbf597fc7, 0xc6e00bf3, 0xd5a79147, 0x06ca6351, 0x14292967,
  0x27b70a85, 0x2e1b2138, 0x4d2c6dfc, 0x53380d13, 0x650a7354, 0x766a0abb, 0x81c2c92e, 0x92722c85,
  0xa2bfe8a1, 0xa81a664b, 0xc24b8b70, 0xc76c51a3, 0xd192e819, 0xd6990624, 0xf40e3585, 0x106aa070,
  0x19a4c116, 0x1e376c08, 0x2748774c, 0x34b0bcb5, 0x391c0cb3, 0x4ed8aa4a, 0x5b9cca4f, 0x682e6ff3,
  0x748f82ee, 0x78a5636f, 0x84c87814, 0x8cc70208, 0x90befffa, 0xa4506ceb, 0xbef9a3f7, 0xc67178f2]

structure State where
  (a b c d e f g h : BitVec 32)

def init : State where
  a := 0x6a09e667
  b := 0xbb67ae85
  c := 0x3c6ef372
  d := 0xa54ff53a
  e := 0x510e527f
  f := 0x9b05688c
  g := 0x1f83d9ab
  h := 0x5be0cd19

-- The message schedule, the latest word first.
def schedule : ℕ → List (BitVec 32) → List (BitVec 32)
  | 0, w     => w
  | n + 1, w =>
    let word (i : ℕ) := w.getD i 0
    let s₀ := (word 14).rotateRight 7 ^^^ (word 14).rotateRight 18 ^^^ (word 14) >>> 3
    let s₁ := (word 1).rotateRight 17 ^^^ (word 1).rotateRight 19 ^^^ (word 1) >>> 10
    schedule n ((word 15 + s₀ + word 6 + s₁) :: w)

def round (s : State) (kw : BitVec 32 × BitVec 32) : State :=
  let s₁ := s.e.rotateRight 6 ^^^ s.e.rotateRight 11 ^^^ s.e.rotateRight 25
  let ch := (s.e &&& s.f) ^^^ (~~~s.e &&& s.g)
  let t₁ := s.h + s₁ + ch + kw.1 + kw.2
  let s₀ := s.a.rotateRight 2 ^^^ s.a.rotateRight 13 ^^^ s.a.rotateRight 22
  let maj := (s.a &&& s.b) ^^^ (s.a &&& s.c) ^^^ (s.b &&& s.c)
  { a := t₁ + (s₀ + maj), b := s.a, c := s.b, d := s.c, e := s.d + t₁, f := s.e, g := s.f, h := s.g }

def compress (s : State) (words : List (BitVec 32)) : State :=
  let r := (K.zip (schedule 48 words.reverse).reverse).foldl round s
  { a := s.a + r.a, b := s.b + r.b, c := s.c + r.c, d := s.d + r.d
    e := s.e + r.e, f := s.f + r.f, g := s.g + r.g, h := s.h + r.h }

def pad (l : Bytes) : Bytes :=
  l ++ 0x80 :: Bytes.zeros ((119 - l.length % 64) % 64) ++ Bytes.toBE 8 (8 * l.length)

def words (l : Bytes) : List (BitVec 32) :=
  (List.range 16).map fun i => BitVec.ofNat 32 (Bytes.fromBE (Rust.subslice l (4 * i) 4))

def hash (l : Bytes) : Bytes :=
  let padded := pad l
  let s := (List.range (padded.length / 64)).foldl (fun s i => compress s (words (padded.drop (64 * i)))) init
  [s.a, s.b, s.c, s.d, s.e, s.f, s.g, s.h].flatMap fun word => Bytes.toBE 4 word.toNat

end Sha256Standard

namespace Latent

@[reducible] def Sha256.standard : Sha256 where
  State         := Bytes
  new           := []
  update        := (· ++ ·)
  finalize      := Sha256Standard.hash
  update_nil    := List.append_nil
  update_append := fun _ _ _ => (List.append_assoc ..).symm

example : String.ofList (Text.hex (Sha256Standard.hash [0x61, 0x62, 0x63])) =
    "ba7816bf8f01cfea414140de5dae2223b00361a396177a9cb410ff61f20015ad" := by
  decide +kernel

end Latent
