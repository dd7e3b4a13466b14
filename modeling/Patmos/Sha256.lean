import Patmos.OcpSignals
import Patmos.Sha2
import Patmos.TransitionSystem
namespace Patmos
open Sha2

namespace Sha256
-- A burst is two, four or eight words.
structure Config where
  burstOffset : Nat
  several : 1 ≤ burstOffset
  short : burstOffset ≤ 3
  extmemAddrWidth : Nat
  narrow : extmemAddrWidth ≤ 32

def Config.burstLength (c : Config) : Nat := 2^c.burstOffset

inductive ShaState where
  | idle
  | restart
  | start
  | compress
  | update
  | waiting
  deriving DecidableEq, Repr

inductive MemState where
  | memIdle
  | memReadReqM
  | memReadM
  | memReadReqH
  | memReadH
  | memWriteReqH
  | memWriteH
  | memWait
  deriving DecidableEq, Repr

def hashDefaults : Words :=
  ⟨0x6a09e667#32,0xbb67ae85#32,0x3c6ef372#32,0xa54ff53a#32,0x510e527f#32,0x9b05688c#32,0x1f83d9ab#32,0x5be0cd19#32⟩

def roundConsts : List (BitVec 32) :=
  [0x428a2f98#32,0x71374491#32,0xb5c0fbcf#32,0xe9b5dba5#32,0x3956c25b#32,0x59f111f1#32,0x923f82a4#32,0xab1c5ed5#32,
   0xd807aa98#32,0x12835b01#32,0x243185be#32,0x550c7dc3#32,0x72be5d74#32,0x80deb1fe#32,0x9bdc06a7#32,0xc19bf174#32,
   0xe49b69c1#32,0xefbe4786#32,0x0fc19dc6#32,0x240ca1cc#32,0x2de92c6f#32,0x4a7484aa#32,0x5cb0a9dc#32,0x76f988da#32,
   0x983e5152#32,0xa831c66d#32,0xb00327c8#32,0xbf597fc7#32,0xc6e00bf3#32,0xd5a79147#32,0x06ca6351#32,0x14292967#32,
   0x27b70a85#32,0x2e1b2138#32,0x4d2c6dfc#32,0x53380d13#32,0x650a7354#32,0x766a0abb#32,0x81c2c92e#32,0x92722c85#32,
   0xa2bfe8a1#32,0xa81a664b#32,0xc24b8b70#32,0xc76c51a3#32,0xd192e819#32,0xd6990624#32,0xf40e3585#32,0x106aa070#32,
   0x19a4c116#32,0x1e376c08#32,0x2748774c#32,0x34b0bcb5#32,0x391c0cb3#32,0x4ed8aa4a#32,0x5b9cca4f#32,0x682e6ff3#32,
   0x748f82ee#32,0x78a5636f#32,0x84c87814#32,0x8cc70208#32,0x90befffa#32,0xa4506ceb#32,0xbef9a3f7#32,0xc67178f2#32]

def funcReset : BitVec 5 := 0b00000#5
def funcPoll : BitVec 5 := 0b00001#5
def funcSetHash : BitVec 5 := 0b00010#5
def funcGetHash : BitVec 5 := 0b00011#5
def funcSingleBlock : BitVec 5 := 0b00100#5
def funcMultipleBlocks : BitVec 5 := 0b00101#5

section
variable (hash : Words) (i : Nat) (data : BitVec 32)

def rotateRight (amt : Nat) : BitVec 32 := (data.extractLsb' 0 amt ++ data.extractLsb' amt (32-amt)).setWidth 32

def s0 : BitVec 32 := rotateRight data 7 ^^^ rotateRight data 18 ^^^ data >>> 3
def s1 : BitVec 32 := rotateRight data 17 ^^^ rotateRight data 19 ^^^ data >>> 10
def e0 : BitVec 32 := rotateRight data 2 ^^^ rotateRight data 13 ^^^ rotateRight data 22
def e1 : BitVec 32 := rotateRight data 6 ^^^ rotateRight data 11 ^^^ rotateRight data 25
def ch (x y z : BitVec 32) : BitVec 32 := (x &&& y) ^^^ (~~~x &&& z)
def maj (x y z : BitVec 32) : BitVec 32 := (x &&& y) ^^^ (x &&& z) ^^^ (y &&& z)

def word : BitVec 32 :=
  match i with
  | 0 => hash.a
  | 1 => hash.b
  | 2 => hash.c
  | 3 => hash.d
  | 4 => hash.e
  | 5 => hash.f
  | 6 => hash.g
  | _ => hash.h

def setWord : Words :=
  match i with
  | 0 => {hash with a := data}
  | 1 => {hash with b := data}
  | 2 => {hash with c := data}
  | 3 => {hash with d := data}
  | 4 => {hash with e := data}
  | 5 => {hash with f := data}
  | 6 => {hash with g := data}
  | _ => {hash with h := data}
end

structure CopIn where
  trigger : Bool
  ena_in : Bool
  isCustom : Bool
  read : Bool
  funcId : BitVec 5
  opData0 : BitVec 32
  opData1 : BitVec 32

structure MemS where
  resp : OcpResp
  data : BitVec 32
  cmdAccept : Bool
  dataAccept : Bool

structure MemM where
  cmd : OcpCmd
  addr : BitVec 32
  data : BitVec 32
  dataValid : Bool
end Sha256

-- The working variables a to h are in `vars`.
structure Sha256 where
  memBufferReg : Bool
  ShaBufferReg : Bool
  hash : Words
  vars : Words
  idxReg : Nat
  msg : Bool → Nat → BitVec 32
  stateReg : Sha256.ShaState
  memState : Sha256.MemState
  blockAddrReg : BitVec 32
  hashAddrReg : BitVec 32
  wordCountReg : Nat
  blockCountReg : BitVec 32
  wt : Nat → BitVec 32
  wx : BitVec 32
  wy : BitVec 32
  wz : BitVec 32
  pipeReg : BitVec 32
  retryReg : Bool

namespace Sha256
variable (c : Config) (u : Sha256)

def msgRdData : BitVec 32 := u.msg u.ShaBufferReg (u.idxReg % 16)
def w0 : BitVec 32 := if u.idxReg < 16 then u.msgRdData else u.wz

def temp1 : BitVec 32 := u.vars.h+e1 u.vars.e+ch u.vars.e u.vars.f u.vars.g+u.pipeReg
def temp2 : BitVec 32 := e0 u.vars.a+maj u.vars.a u.vars.b u.vars.c

def expand : Sha256 :=
  {u with
    wt := fun i => if i = 0 then u.w0 else u.wt (i-1)
    wx := u.wt 12+s0 (u.wt 11)
    wy := u.wx+u.wt 4
    wz := u.wy+s1 (u.wt 0)
    pipeReg := u.w0+roundConsts.getD (u.idxReg % 64) 0#32
    vars := ⟨u.temp1+u.temp2,u.vars.a,u.vars.b,u.vars.c,u.vars.d+u.temp1,u.vars.e,u.vars.f,u.vars.g⟩}

-- In the definitions below the registers hold their values of this cycle in u, and q holds what has been assigned so
-- far: the last assignment counts.
def compression (q : Sha256) : Sha256 :=
  match u.stateReg with
  | .idle | .waiting => q
  | .restart => {q with hash := hashDefaults, stateReg := .idle}
  | .start => {q with vars := u.hash, idxReg := (u.idxReg+1) % 2^7, stateReg := .compress}
  | .compress => {q with idxReg := (u.idxReg+1) % 2^7, stateReg := if u.idxReg < 64 then .compress else .update}
  | .update =>
    let q := {q with hash := u.hash.add u.vars, ShaBufferReg := !u.ShaBufferReg}
    match u.memState with
    | .memWait => {q with idxReg := 0, stateReg := .start, memState := .memReadReqM}
    | .memIdle => if u.ShaBufferReg = u.memBufferReg then {q with idxReg := 0, stateReg := .start} else {q with stateReg := .idle}
    | _ => {q with stateReg := .waiting}

def isIdle : Bool := u.stateReg = .idle ∧ u.memState = .memIdle ∧ u.blockCountReg = 0#32

def active (i : CopIn) : Bool := (i.trigger || u.retryReg) && i.ena_in && !i.isCustom

def command (q : Sha256) (i : CopIn) : Sha256 :=
  if u.active i && !i.read && u.isIdle then
    if i.funcId = funcReset then {q with stateReg := .restart}
    else if i.funcId = funcSetHash then {q with hashAddrReg := i.opData0, memState := .memReadReqH}
    else if i.funcId = funcGetHash then {q with hashAddrReg := i.opData0, memState := .memWriteReqH}
    else if i.funcId = funcSingleBlock then {q with blockAddrReg := i.opData0, memState := .memReadReqM, blockCountReg := 1#32}
    else if i.funcId = funcMultipleBlocks then
      {q with blockAddrReg := i.opData0, memState := .memReadReqM, blockCountReg := i.opData1}
    else q
  else q

def knownWrite (funcId : BitVec 5) : Bool :=
  funcId = funcReset ∨ funcId = funcSetHash ∨ funcId = funcGetHash ∨ funcId = funcSingleBlock ∨ funcId = funcMultipleBlocks

def enaOut (i : CopIn) : Bool :=
  u.active i && if i.read then decide (i.funcId = funcPoll) else knownWrite i.funcId && u.isIdle

def result (i : CopIn) : BitVec 32 :=
  if u.active i && i.read && decide (i.funcId = funcPoll) then (BitVec.ofBool !u.isIdle).setWidth 32 else 0#32

def burstAddrOffset : BitVec 32 := BitVec.ofNat 32 (c.burstLength*4)

-- The word counter inside a burst and, for the message and the hash, the number of the burst.
def inBurst : Nat := u.wordCountReg % c.burstLength
def msgBurst : Nat := u.wordCountReg/c.burstLength
def hashBurst : Nat := u.wordCountReg % 8/c.burstLength

def master : MemM :=
  match u.memState with
  | .memReadReqM => ⟨.rd,u.blockAddrReg,0#32,false⟩
  | .memReadReqH => ⟨.rd,u.hashAddrReg,0#32,false⟩
  | .memWriteReqH => ⟨.wr,u.hashAddrReg,word u.hash (u.wordCountReg % 8),true⟩
  | .memWriteH => ⟨.idle,0#32,word u.hash (u.wordCountReg % 8),true⟩
  | _ => ⟨.idle,0#32,0#32,false⟩

def blockRead (q : Sha256) : Sha256 :=
  let q := {q with memBufferReg := !u.memBufferReg, wordCountReg := 0, blockCountReg := u.blockCountReg-1#32}
  let q := if u.stateReg = .idle ∨ u.stateReg = .update ∨ u.stateReg = .waiting then
      {q with memState := .memReadReqM, idxReg := 0, stateReg := .start}
    else {q with memState := .memWait}
  if u.blockCountReg = 1#32 then {q with memState := .memIdle} else q

def counted : Nat := (u.wordCountReg+1) % 16

def memory (q : Sha256) (s : MemS) : Sha256 :=
  match u.memState with
  | .memIdle | .memWait => q
  | .memReadReqM => if s.cmdAccept then {q with memState := .memReadM} else q
  | .memReadM =>
    let q := {q with msg := fun buffer i => if buffer = u.memBufferReg ∧ i = u.wordCountReg then s.data else u.msg buffer i}
    if s.resp = .dva then
      if u.inBurst c < c.burstLength-1 then {q with wordCountReg := u.counted}
      else
        let q := {q with blockAddrReg := u.blockAddrReg+burstAddrOffset c}
        if u.msgBurst c < 16/c.burstLength-1 then {q with wordCountReg := u.counted, memState := .memReadReqM}
        else u.blockRead q
    else q
  | .memReadReqH => if s.cmdAccept then {q with memState := .memReadH} else q
  | .memReadH =>
    let q := {q with hash := setWord q.hash (u.wordCountReg % 8) s.data}
    if s.resp = .dva then
      if u.inBurst c < c.burstLength-1 then {q with wordCountReg := u.counted}
      else
        let q := {q with hashAddrReg := u.hashAddrReg+burstAddrOffset c}
        if u.hashBurst c < 8/c.burstLength-1 then {q with wordCountReg := u.counted, memState := .memReadReqH}
        else {q with wordCountReg := 0, memState := .memIdle}
    else q
  | .memWriteReqH => if s.cmdAccept && s.dataAccept then {q with wordCountReg := u.counted, memState := .memWriteH} else q
  | .memWriteH =>
    let q := if s.dataAccept && decide (u.inBurst c < c.burstLength-1) then {q with wordCountReg := u.counted} else q
    if s.resp = .dva then
      let q := {q with hashAddrReg := u.hashAddrReg+burstAddrOffset c}
      if u.hashBurst c < 8/c.burstLength-1 then {q with wordCountReg := u.counted, memState := .memWriteReqH}
      -- The source writes `idle` of the other enumeration here, which has the same code.
      else {q with wordCountReg := 0, memState := .memIdle}
    else q

def next (i : CopIn) (s : MemS) : Sha256 :=
  {u.memory c (u.command (u.compression u.expand) i) s with
    retryReg := ((i.trigger && i.ena_in) || u.retryReg) && !u.enaOut i}
end Sha256
end Patmos
