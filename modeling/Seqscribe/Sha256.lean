import Mathlib.Data.List.Basic

/-! SHA-256 over natural numbers: words are below `2 ^ 32` and bytes below `2 ^ 8`. -/

namespace Sha256

def wordSize : Nat := 4294967296

def rotr (x n : Nat) : Nat := (x >>> n) ||| ((x <<< (32 - n)) % wordSize)

def add (a b : Nat) : Nat := (a + b) % wordSize

def roundConstants : List Nat :=
  [0x428a2f98, 0x71374491, 0xb5c0fbcf, 0xe9b5dba5, 0x3956c25b, 0x59f111f1, 0x923f82a4, 0xab1c5ed5,
   0xd807aa98, 0x12835b01, 0x243185be, 0x550c7dc3, 0x72be5d74, 0x80deb1fe, 0x9bdc06a7, 0xc19bf174,
   0xe49b69c1, 0xefbe4786, 0x0fc19dc6, 0x240ca1cc, 0x2de92c6f, 0x4a7484aa, 0x5cb0a9dc, 0x76f988da,
   0x983e5152, 0xa831c66d, 0xb00327c8, 0xbf597fc7, 0xc6e00bf3, 0xd5a79147, 0x06ca6351, 0x14292967,
   0x27b70a85, 0x2e1b2138, 0x4d2c6dfc, 0x53380d13, 0x650a7354, 0x766a0abb, 0x81c2c92e, 0x92722c85,
   0xa2bfe8a1, 0xa81a664b, 0xc24b8b70, 0xc76c51a3, 0xd192e819, 0xd6990624, 0xf40e3585, 0x106aa070,
   0x19a4c116, 0x1e376c08, 0x2748774c, 0x34b0bcb5, 0x391c0cb3, 0x4ed8aa4a, 0x5b9cca4f, 0x682e6ff3,
   0x748f82ee, 0x78a5636f, 0x84c87814, 0x8cc70208, 0x90befffa, 0xa4506ceb, 0xbef9a3f7, 0xc67178f2]

structure Working where
  a : Nat
  b : Nat
  c : Nat
  d : Nat
  e : Nat
  f : Nat
  g : Nat
  h : Nat

def initial : Working where
  a := 0x6a09e667
  b := 0xbb67ae85
  c := 0x3c6ef372
  d := 0xa54ff53a
  e := 0x510e527f
  f := 0x9b05688c
  g := 0x1f83d9ab
  h := 0x5be0cd19

/-- The message schedule, newest word first, extended `n` times. -/
def extendSchedule : Nat → List Nat → List Nat
  | 0, ws => ws
  | n + 1, ws =>
    let w15 := ws.getD 14 0
    let w2 := ws.getD 1 0
    let s0 := rotr w15 7 ^^^ rotr w15 18 ^^^ (w15 >>> 3)
    let s1 := rotr w2 17 ^^^ rotr w2 19 ^^^ (w2 >>> 10)
    extendSchedule n (add (add (add (ws.getD 15 0) s0) (ws.getD 6 0)) s1 :: ws)

/-- One round, given the sum of its constant and its scheduled word. -/
def round (s : Working) (kw : Nat) : Working :=
  let s1 := rotr s.e 6 ^^^ rotr s.e 11 ^^^ rotr s.e 25
  let ch := (s.e &&& s.f) ^^^ ((wordSize - 1 - s.e) &&& s.g)
  let t1 := (s.h + s1 + ch + kw) % wordSize
  let s0 := rotr s.a 2 ^^^ rotr s.a 13 ^^^ rotr s.a 22
  let maj := (s.a &&& s.b) ^^^ (s.a &&& s.c) ^^^ (s.b &&& s.c)
  ⟨(t1 + (s0 + maj)) % wordSize, s.a, s.b, s.c, add s.d t1, s.e, s.f, s.g⟩

def words : List Nat → List Nat
  | a :: b :: c :: d :: rest => (a * 0x1000000 + b * 0x10000 + c * 0x100 + d) :: words rest
  | _ => []

def compress (s : Working) (block : List Nat) : Working :=
  let schedule := (extendSchedule 48 (words block).reverse).reverse
  let r := (List.zipWith (· + ·) roundConstants schedule).foldl round s
  ⟨add s.a r.a, add s.b r.b, add s.c r.c, add s.d r.d,
    add s.e r.e, add s.f r.f, add s.g r.g, add s.h r.h⟩

def blocks : Nat → Working → List Nat → Working
  | 0, s, _ => s
  | n + 1, s, bytes => blocks n (compress s (bytes.take 64)) (bytes.drop 64)

def pad (bytes : List Nat) : List Nat :=
  let n := bytes.length
  bytes ++ [128] ++ List.replicate ((119 - n % 64) % 64) 0 ++
    (List.range 8).map fun i => (n * 8) >>> (8 * (7 - i)) % 256

def hash (bytes : List Nat) : Working :=
  let padded := pad bytes
  blocks (padded.length / 64) initial padded

def hexDigit (n : Nat) : Char := Char.ofNat (if n < 10 then 48 + n else 87 + n)

def hexWord (x : Nat) : List Char :=
  (List.range 8).map fun i => hexDigit (x >>> (4 * (7 - i)) % 16)

/-- The digest in lowercase hexadecimal. -/
def hexDigest (bytes : List UInt8) : String :=
  let s := hash (bytes.map UInt8.toNat)
  String.ofList ([s.a, s.b, s.c, s.d, s.e, s.f, s.g, s.h].flatMap hexWord)

end Sha256
