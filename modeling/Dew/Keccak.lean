/-
# Keccak-256

The sponge function with rate 136 and the original `0x01` padding, as an executable
definition. Nothing is ever assumed about its collisions: the development only uses that it
is a function, and evaluates it on some strings.
-/
import Dew.Bytes

namespace Keccak

/-- A lane of the sponge state, which has `25` of them. -/
abbrev Lane := BitVec 64

def roundConstants : List Lane :=
  [0x0000000000000001, 0x0000000000008082, 0x800000000000808a, 0x8000000080008000,
   0x000000000000808b, 0x0000000080000001, 0x8000000080008081, 0x8000000000008009,
   0x000000000000008a, 0x0000000000000088, 0x0000000080008009, 0x000000008000000a,
   0x000000008000808b, 0x800000000000008b, 0x8000000000008089, 0x8000000000008003,
   0x8000000000008002, 0x8000000000000080, 0x000000000000800a, 0x800000008000000a,
   0x8000000080008081, 0x8000000000008080, 0x0000000080000001, 0x8000000080008008]

/-- Rotation amounts, by lane index `x + 5 * y`. -/
def rotations : List ℕ :=
  [0, 1, 62, 28, 27, 36, 44, 6, 55, 20, 3, 10, 43, 25, 39, 41, 45, 15, 21, 8, 18, 2, 61, 56, 14]

def lane (a : List Lane) (x y : ℕ) : Lane :=
  a.getD (x % 5 + 5 * y) 0

def grid (f : ℕ → ℕ → Lane) : List Lane :=
  (List.range 25).map fun i => f (i % 5) (i / 5)

def theta (a : List Lane) : List Lane :=
  let c := (List.range 5).map fun x =>
    lane a x 0 ^^^ lane a x 1 ^^^ lane a x 2 ^^^ lane a x 3 ^^^ lane a x 4
  let d := (List.range 5).map fun x => lane c (x + 4) 0 ^^^ (lane c (x + 1) 0).rotateLeft 1
  grid fun x y => lane a x y ^^^ lane d x 0

def rhoPi (a : List Lane) : List Lane :=
  grid fun x y =>
    let i := (x + 3 * y) % 5
    (lane a i x).rotateLeft (rotations.getD (i + 5 * x) 0)

def chi (b : List Lane) : List Lane :=
  grid fun x y => lane b x y ^^^ (~~~ lane b (x + 1) y &&& lane b (x + 2) y)

def iota (rc : Lane) : List Lane → List Lane
  | [] => []
  | l :: rest => (l ^^^ rc) :: rest

def permute (a : List Lane) : List Lane :=
  roundConstants.foldl (fun a rc => iota rc (chi (rhoPi (theta a)))) a

/-- The lanes of one rate block; the capacity lanes are zero. -/
def blockLanes (b : Bytes) : List Lane :=
  (List.range 25).map fun i =>
    BitVec.ofNat 64 (Bytes.ofBytes ((b.drop (8 * i)).take 8).reverse)

def absorb (a : List Lane) (b : Bytes) : List Lane :=
  permute (List.zipWith (· ^^^ ·) a (blockLanes b))

/-- The padding after a message of `n` bytes. -/
def padding (n : ℕ) : Bytes :=
  match 136 - n % 136 with
  | 1 => [0x81]
  | k => 0x01 :: (List.replicate (k - 2) 0 ++ [0x80])

def blocks : ℕ → Bytes → List Bytes
  | 0, _ => []
  | k + 1, b => b.take 136 :: blocks k (b.drop 136)

def laneBytes (l : Lane) : Bytes :=
  (Bytes.beBytes 8 l.toNat).reverse

/-- The digest as a big-endian 256-bit number. -/
def keccak256 (b : Bytes) : BitVec 256 :=
  let padded := b ++ padding b.length
  let a := (blocks (b.length / 136 + 1) padded).foldl absorb (List.replicate 25 0)
  BitVec.ofNat 256 (Bytes.ofBytes ((a.take 4).flatMap laneBytes))

end Keccak
