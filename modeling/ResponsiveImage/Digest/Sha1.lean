/-!
# SHA-1

The 160-bit digest of a byte string, written with hexadecimal digits.
-/

namespace ResponsiveImage.Sha1

def rotate (x : UInt32) (n : UInt32) : UInt32 := (x <<< n) ||| (x >>> (32 - n))

/-- A number as big-endian bytes. -/
def bigEndian (width n : Nat) : List UInt8 :=
  (List.range width).reverse.map fun i ↦ .ofNat (n / Nat.pow 256 i)

/-- The message with its padding: a one bit, zeros, and the length in bits, to a multiple of 64
bytes. -/
def padded (bs : List UInt8) : List UInt8 :=
  let zeros := (119 - bs.length % 64) % 64
  bs ++ 0x80 :: List.replicate zeros 0 ++ bigEndian 8 (8 * bs.length)

/-- The 32-bit words of big-endian bytes. -/
def words : List UInt8 → List UInt32
  | a :: b :: c :: d :: rest =>
    ((a.toUInt32 <<< 24) ||| (b.toUInt32 <<< 16) ||| (c.toUInt32 <<< 8) ||| d.toUInt32) ::
      words rest
  | _ => []

/-- Further words of a block, each made of four earlier ones; the last word stands first. -/
def extend : Nat → List UInt32 → List UInt32
  | 0, ws => ws
  | n + 1, ws =>
    let w := ws.getD 2 0 ^^^ ws.getD 7 0 ^^^ ws.getD 13 0 ^^^ ws.getD 15 0
    extend n (rotate w 1 :: ws)

structure State where
  a : UInt32 := 0x67452301
  b : UInt32 := 0xefcdab89
  c : UInt32 := 0x98badcfe
  d : UInt32 := 0x10325476
  e : UInt32 := 0xc3d2e1f0
deriving DecidableEq, Repr

/-- The function and the constant of a round. -/
def mix (s : State) (round : Nat) : UInt32 × UInt32 :=
  if round < 20 then ((s.b &&& s.c) ||| (~~~s.b &&& s.d), 0x5a827999)
  else if round < 40 then (s.b ^^^ s.c ^^^ s.d, 0x6ed9eba1)
  else if round < 60 then ((s.b &&& s.c) ||| (s.b &&& s.d) ||| (s.c &&& s.d), 0x8f1bbcdc)
  else (s.b ^^^ s.c ^^^ s.d, 0xca62c1d6)

def step (s : State) (w : UInt32 × Nat) : State :=
  let (f, k) := mix s w.2
  ⟨rotate s.a 5 + f + s.e + k + w.1, s.a, rotate s.b 30, s.c, s.d⟩

/-- The state after one block of sixteen words. -/
def block (s : State) (ws : List UInt32) : State :=
  let t := ((extend 64 ws.reverse).reverse.zipIdx).foldl step s
  ⟨s.a + t.a, s.b + t.b, s.c + t.c, s.d + t.d, s.e + t.e⟩

/-- The state after that many blocks. -/
def blocks : Nat → State → List UInt32 → State
  | 0, s, _ => s
  | n + 1, s, ws => blocks n (block s (ws.take 16)) (ws.drop 16)

def State.words (s : State) : List UInt32 := [s.a, s.b, s.c, s.d, s.e]

/-- The digest of a byte string in hexadecimal digits. -/
def hex (bs : List UInt8) : String :=
  let message := padded bs
  let digest := (blocks (message.length / 64) {} (words message)).words
  String.ofList (digest.flatMap fun w ↦ (Nat.toDigits 16 (w.toNat + Nat.pow 16 8)).tail)

end ResponsiveImage.Sha1
