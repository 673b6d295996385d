import ModelHost.Text.Basic

/-!
The SHA-256 digest of a content, written in lowercase hexadecimal digits. A content agrees with an
expected digest whatever case the latter has and whatever blanks are around it.
-/

namespace ModelHost.Sha256

/-- The first words of the fractions of the cube roots of the first 64 primes. -/
def roundConstants : List UInt32 :=
  [0x428A2F98, 0x71374491, 0xB5C0FBCF, 0xE9B5DBA5, 0x3956C25B, 0x59F111F1, 0x923F82A4,
   0xAB1C5ED5, 0xD807AA98, 0x12835B01, 0x243185BE, 0x550C7DC3, 0x72BE5D74, 0x80DEB1FE,
   0x9BDC06A7, 0xC19BF174, 0xE49B69C1, 0xEFBE4786, 0x0FC19DC6, 0x240CA1CC, 0x2DE92C6F,
   0x4A7484AA, 0x5CB0A9DC, 0x76F988DA, 0x983E5152, 0xA831C66D, 0xB00327C8, 0xBF597FC7,
   0xC6E00BF3, 0xD5A79147, 0x06CA6351, 0x14292967, 0x27B70A85, 0x2E1B2138, 0x4D2C6DFC,
   0x53380D13, 0x650A7354, 0x766A0ABB, 0x81C2C92E, 0x92722C85, 0xA2BFE8A1, 0xA81A664B,
   0xC24B8B70, 0xC76C51A3, 0xD192E819, 0xD6990624, 0xF40E3585, 0x106AA070, 0x19A4C116,
   0x1E376C08, 0x2748774C, 0x34B0BCB5, 0x391C0CB3, 0x4ED8AA4A, 0x5B9CCA4F, 0x682E6FF3,
   0x748F82EE, 0x78A5636F, 0x84C87814, 0x8CC70208, 0x90BEFFFA, 0xA4506CEB, 0xBEF9A3F7,
   0xC67178F2]

structure State where
  a : UInt32
  b : UInt32
  c : UInt32
  d : UInt32
  e : UInt32
  f : UInt32
  g : UInt32
  h : UInt32
deriving DecidableEq, Repr

/-- The first words of the fractions of the square roots of the first eight primes. -/
def State.start : State :=
  ⟨0x6A09E667, 0xBB67AE85, 0x3C6EF372, 0xA54FF53A, 0x510E527F, 0x9B05688C, 0x1F83D9AB, 0x5BE0CD19⟩

def State.words (s : State) : List UInt32 := [s.a, s.b, s.c, s.d, s.e, s.f, s.g, s.h]

def State.add (s t : State) : State :=
  ⟨s.a + t.a, s.b + t.b, s.c + t.c, s.d + t.d, s.e + t.e, s.f + t.f, s.g + t.g, s.h + t.h⟩

def rotate (x : UInt32) (n : UInt32) : UInt32 := (x >>> n) ||| (x <<< (32 - n))

def State.round (s : State) (constant word : UInt32) : State :=
  let choice := (s.e &&& s.f) ^^^ (~~~s.e &&& s.g)
  let majority := (s.a &&& s.b) ^^^ (s.a &&& s.c) ^^^ (s.b &&& s.c)
  let first := s.h + (rotate s.e 6 ^^^ rotate s.e 11 ^^^ rotate s.e 25) + choice + constant + word
  let second := (rotate s.a 2 ^^^ rotate s.a 13 ^^^ rotate s.a 22) + majority
  ⟨first + second, s.a, s.b, s.c, s.d + first, s.e, s.f, s.g⟩

def byteAt (bytes : ByteArray) (i : Nat) : UInt32 :=
  if h : i < bytes.size then bytes[i].toUInt32 else 0

def wordAt (bytes : ByteArray) (i : Nat) : UInt32 :=
  (byteAt bytes i <<< 24) ||| (byteAt bytes (i + 1) <<< 16) ||| (byteAt bytes (i + 2) <<< 8) |||
    byteAt bytes (i + 3)

def extend : Nat → Array UInt32 → Array UInt32
  | 0, words => words
  | count + 1, words =>
    let before (n : Nat) : UInt32 := words.getD (words.size - n) 0
    let near := before 2
    let far := before 15
    extend count <| words.push <|
      before 16 + (rotate far 7 ^^^ rotate far 18 ^^^ (far >>> 3)) + before 7 +
        (rotate near 17 ^^^ rotate near 19 ^^^ (near >>> 10))

def schedule (bytes : ByteArray) (start : Nat) : List UInt32 :=
  (extend 48 ((Array.range 16).map fun i => wordAt bytes (start + 4 * i))).toList

def compress (bytes : ByteArray) (s : State) (start : Nat) : State :=
  s.add <| (roundConstants.zip (schedule bytes start)).foldl
    (fun s (constant, word) => s.round constant word) s

/-- A content made up to whole blocks of 64 bytes: a bit that is set, zeros, and the number of bits
of the content. -/
def pad (content : ByteArray) : ByteArray :=
  let zeros : ByteArray := ⟨Array.replicate ((119 - content.size % 64) % 64) 0⟩
  let bits := content.size * 8
  let count : ByteArray := ⟨((List.range 8).map fun i => (bits >>> (56 - 8 * i)).toUInt8).toArray⟩
  content.push 0x80 ++ zeros ++ count

def run (content : ByteArray) : State :=
  let bytes := pad content
  (List.range (bytes.size / 64)).foldl (fun s i => compress bytes s (64 * i)) State.start

def hexWord (word : UInt32) : List Char :=
  (List.range 8).map fun i => Nat.digitChar ((word.toNat >>> (28 - 4 * i)) % 16)

def digest (content : ByteArray) : String := String.ofList ((run content).words.flatMap hexWord)

def normalized (expected : String) : String :=
  String.ofList ((Text.trim expected.toList).map Char.toLower)

def agrees (content : ByteArray) (expected : String) : Bool :=
  digest content = normalized expected

end ModelHost.Sha256
