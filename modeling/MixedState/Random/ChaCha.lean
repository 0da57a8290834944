/-!
# The ChaCha stream with twelve rounds

A word is spelled out to a key, and the key with a counter gives a block of sixteen words.
-/

namespace MixedState
namespace ChaCha

structure Block where
  x0 : UInt32
  x1 : UInt32
  x2 : UInt32
  x3 : UInt32
  x4 : UInt32
  x5 : UInt32
  x6 : UInt32
  x7 : UInt32
  x8 : UInt32
  x9 : UInt32
  x10 : UInt32
  x11 : UInt32
  x12 : UInt32
  x13 : UInt32
  x14 : UInt32
  x15 : UInt32

structure Key where
  k0 : UInt32
  k1 : UInt32
  k2 : UInt32
  k3 : UInt32
  k4 : UInt32
  k5 : UInt32
  k6 : UInt32
  k7 : UInt32
  deriving DecidableEq

def rotateLeft (x : UInt32) (n : UInt32) : UInt32 :=
  (x <<< n) ||| (x >>> (32 - n))

structure Quarter where
  a : UInt32
  b : UInt32
  c : UInt32
  d : UInt32

def quarterRound (a b c d : UInt32) : Quarter :=
  let a := a + b
  let d := rotateLeft (d ^^^ a) 16
  let c := c + d
  let b := rotateLeft (b ^^^ c) 12
  let a := a + b
  let d := rotateLeft (d ^^^ a) 8
  let c := c + d
  let b := rotateLeft (b ^^^ c) 7
  ⟨a, b, c, d⟩

def doubleRound (s : Block) : Block :=
  let p := quarterRound s.x0 s.x4 s.x8 s.x12
  let q := quarterRound s.x1 s.x5 s.x9 s.x13
  let r := quarterRound s.x2 s.x6 s.x10 s.x14
  let t := quarterRound s.x3 s.x7 s.x11 s.x15
  let u := quarterRound p.a q.b r.c t.d
  let v := quarterRound q.a r.b t.c p.d
  let w := quarterRound r.a t.b p.c q.d
  let z := quarterRound t.a p.b q.c r.d
  { x0 := u.a, x1 := v.a, x2 := w.a, x3 := z.a
    x4 := z.b, x5 := u.b, x6 := v.b, x7 := w.b
    x8 := w.c, x9 := z.c, x10 := u.c, x11 := v.c
    x12 := v.d, x13 := w.d, x14 := z.d, x15 := u.d }

def rounds (n : Nat) (s : Block) : Block :=
  match n with
  | 0 => s
  | n + 1 => rounds n (doubleRound s)

/-- The words before the rounds: the constants, the key, the counter, and two
zero words. -/
def start (key : Key) (counter : UInt64) : Block :=
  { x0 := 0x61707865, x1 := 0x3320646e, x2 := 0x79622d32, x3 := 0x6b206574
    x4 := key.k0, x5 := key.k1, x6 := key.k2, x7 := key.k3
    x8 := key.k4, x9 := key.k5, x10 := key.k6, x11 := key.k7
    x12 := counter.toUInt32, x13 := (counter >>> 32).toUInt32, x14 := 0, x15 := 0 }

def addBlocks (s t : Block) : Block :=
  { x0 := s.x0 + t.x0, x1 := s.x1 + t.x1, x2 := s.x2 + t.x2, x3 := s.x3 + t.x3
    x4 := s.x4 + t.x4, x5 := s.x5 + t.x5, x6 := s.x6 + t.x6, x7 := s.x7 + t.x7
    x8 := s.x8 + t.x8, x9 := s.x9 + t.x9, x10 := s.x10 + t.x10, x11 := s.x11 + t.x11
    x12 := s.x12 + t.x12, x13 := s.x13 + t.x13, x14 := s.x14 + t.x14
    x15 := s.x15 + t.x15 }

def block (key : Key) (counter : UInt64) : Block :=
  let s := start key counter
  addBlocks s (rounds 6 s)

def join (low high : UInt32) : UInt64 :=
  low.toUInt64 ||| (high.toUInt64 <<< 32)

def Block.pair (s : Block) (i : Nat) : UInt64 :=
  match i with
  | 0 => join s.x0 s.x1
  | 1 => join s.x2 s.x3
  | 2 => join s.x4 s.x5
  | 3 => join s.x6 s.x7
  | 4 => join s.x8 s.x9
  | 5 => join s.x10 s.x11
  | 6 => join s.x12 s.x13
  | _ => join s.x14 s.x15

def seedStep (state : UInt64) : UInt64 :=
  state * 6364136223846793005 + 11634580027462260723

def seedWord (state : UInt64) : UInt32 :=
  let x := (((state >>> 18) ^^^ state) >>> 27).toUInt32
  let n := (state >>> 59).toUInt32
  (x >>> n) ||| (x <<< ((32 - n) % 32))

def Key.ofSeed (seed : UInt64) : Key :=
  let s0 := seedStep seed
  let s1 := seedStep s0
  let s2 := seedStep s1
  let s3 := seedStep s2
  let s4 := seedStep s3
  let s5 := seedStep s4
  let s6 := seedStep s5
  let s7 := seedStep s6
  { k0 := seedWord s0, k1 := seedWord s1, k2 := seedWord s2, k3 := seedWord s3
    k4 := seedWord s4, k5 := seedWord s5, k6 := seedWord s6, k7 := seedWord s7 }

end ChaCha
end MixedState
