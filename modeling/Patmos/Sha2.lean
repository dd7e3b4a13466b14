import Mathlib.Data.BitVec
namespace Sha2
-- SHA-256 as FIPS 180-4 has it, on blocks of sixteen words.
def smallSigma0 (x : BitVec 32) : BitVec 32 := x.rotateRight 7 ^^^ x.rotateRight 18 ^^^ x >>> 3
def smallSigma1 (x : BitVec 32) : BitVec 32 := x.rotateRight 17 ^^^ x.rotateRight 19 ^^^ x >>> 10
def bigSigma0 (x : BitVec 32) : BitVec 32 := x.rotateRight 2 ^^^ x.rotateRight 13 ^^^ x.rotateRight 22
def bigSigma1 (x : BitVec 32) : BitVec 32 := x.rotateRight 6 ^^^ x.rotateRight 11 ^^^ x.rotateRight 25
def choose (x y z : BitVec 32) : BitVec 32 := (x &&& y) ^^^ (~~~x &&& z)
def majority (x y z : BitVec 32) : BitVec 32 := (x &&& y) ^^^ (x &&& z) ^^^ (y &&& z)

-- The cube roots of the first primes.
def constants : List (BitVec 32) :=
  [0x428a2f98#32,0x71374491#32,0xb5c0fbcf#32,0xe9b5dba5#32,0x3956c25b#32,0x59f111f1#32,0x923f82a4#32,0xab1c5ed5#32,
   0xd807aa98#32,0x12835b01#32,0x243185be#32,0x550c7dc3#32,0x72be5d74#32,0x80deb1fe#32,0x9bdc06a7#32,0xc19bf174#32,
   0xe49b69c1#32,0xefbe4786#32,0x0fc19dc6#32,0x240ca1cc#32,0x2de92c6f#32,0x4a7484aa#32,0x5cb0a9dc#32,0x76f988da#32,
   0x983e5152#32,0xa831c66d#32,0xb00327c8#32,0xbf597fc7#32,0xc6e00bf3#32,0xd5a79147#32,0x06ca6351#32,0x14292967#32,
   0x27b70a85#32,0x2e1b2138#32,0x4d2c6dfc#32,0x53380d13#32,0x650a7354#32,0x766a0abb#32,0x81c2c92e#32,0x92722c85#32,
   0xa2bfe8a1#32,0xa81a664b#32,0xc24b8b70#32,0xc76c51a3#32,0xd192e819#32,0xd6990624#32,0xf40e3585#32,0x106aa070#32,
   0x19a4c116#32,0x1e376c08#32,0x2748774c#32,0x34b0bcb5#32,0x391c0cb3#32,0x4ed8aa4a#32,0x5b9cca4f#32,0x682e6ff3#32,
   0x748f82ee#32,0x78a5636f#32,0x84c87814#32,0x8cc70208#32,0x90befffa#32,0xa4506ceb#32,0xbef9a3f7#32,0xc67178f2#32]

def constant (t : Nat) : BitVec 32 := constants.getD t 0#32

@[ext]
structure Words where
  a : BitVec 32
  b : BitVec 32
  c : BitVec 32
  d : BitVec 32
  e : BitVec 32
  f : BitVec 32
  g : BitVec 32
  h : BitVec 32

def Words.add (x y : Words) : Words :=
  ⟨x.a+y.a,x.b+y.b,x.c+y.c,x.d+y.d,x.e+y.e,x.f+y.f,x.g+y.g,x.h+y.h⟩

def round (v : Words) (constant word : BitVec 32) : Words :=
  let temp1 := v.h+bigSigma1 v.e+choose v.e v.f v.g+constant+word
  let temp2 := bigSigma0 v.a+majority v.a v.b v.c
  ⟨temp1+temp2,v.a,v.b,v.c,v.d+temp1,v.e,v.f,v.g⟩

def schedule (message : Nat → BitVec 32) (t : Nat) : BitVec 32 :=
  if t < 16 then message t
  else smallSigma1 (schedule message (t-2))+schedule message (t-7)+smallSigma0 (schedule message (t-15))+
    schedule message (t-16)

def rounds (message : Nat → BitVec 32) (v : Words) : Nat → Words
  | 0 => v
  | t+1 => round (rounds message v t) (constant t) (schedule message t)

def compress (hash : Words) (message : Nat → BitVec 32) : Words := hash.add (rounds message hash 64)

def digest (hash : Words) (blocks : Nat → Nat → BitVec 32) : Nat → Words
  | 0 => hash
  | k+1 => compress (digest hash blocks k) (blocks k)

section Schedule
variable {message other : Nat → BitVec 32}

theorem schedule_first (few : t < 16) : schedule message t = message t := by
  rw [schedule,if_pos few]

theorem schedule_later (t : Nat) :
    schedule message (t+16) =
      smallSigma1 (schedule message (t+14))+schedule message (t+9)+smallSigma0 (schedule message (t+1))+schedule message t := by
  rw [schedule,if_neg (by omega)]
  rfl
end Schedule
end Sha2
