import Patmos.Rtc
namespace Patmos
-- Shifts words of inputWidth bits into a register of outputWidth bits.
structure Deserializer (inputWidth outputWidth : Nat) where
  shiftReg : BitVec outputWidth
  countReg : Nat
  doneReg : Bool

namespace Deserializer
variable {inputWidth outputWidth : Nat}

def shiftAmount (_ : Deserializer inputWidth outputWidth) : Nat := outputWidth/inputWidth-1

section
variable (msbFirst : Bool) (d : Deserializer inputWidth outputWidth) (en clr : Bool) (shiftIn : BitVec inputWidth)

def shifted : BitVec outputWidth :=
  if msbFirst then (d.shiftReg <<< inputWidth) ||| shiftIn.setWidth outputWidth
  else (d.shiftReg >>> inputWidth) ||| (shiftIn.setWidth outputWidth <<< (outputWidth-inputWidth))

def next : Deserializer inputWidth outputWidth where
  shiftReg := if clr then 0 else if en then d.shifted msbFirst shiftIn else d.shiftReg
  countReg := if clr then 0 else if en then if d.countReg = d.shiftAmount then 0 else d.countReg+1 else d.countReg
  doneReg := d.countReg = d.shiftAmount ∧ en
end
end Deserializer

namespace Mii
def constSFD : BitVec 64 := 0x55555555555555D5#64
def constVLANt1 : BitVec 16 := 0x8100#16
def constVLANt2 : BitVec 16 := 0x88A8#16
def constVLANt3 : BitVec 16 := 0x9100#16
def constIPv4t : BitVec 16 := 0x0800#16
def constPCFt : BitVec 16 := 0x891D#16
def constPTP2t : BitVec 16 := 0x88F7#16
def constPTP4t1 : BitVec 16 := 0x013F#16
def constPTP4t2 : BitVec 16 := 0x0140#16
def constPTPGeneralPort : BitVec 16 := 319#16
def constPTPEventPort : BitVec 16 := 320#16
def constPTPDlyReqType : BitVec 8 := 0x01#8

def isVLAN (ethType : BitVec 16) : Bool := ethType = constVLANt1 ∨ ethType = constVLANt2 ∨ ethType = constVLANt3
def isPTP (ethType : BitVec 16) : Bool := ethType = constPTP2t ∨ ethType = constPTP4t1 ∨ ethType = constPTP4t2
def isPTPPort (port : BitVec 16) : Bool := port = constPTPGeneralPort ∨ port = constPTPEventPort

inductive ParserState where
  | stCollectSFD
  | stDstMAC
  | stSrcMAC
  | stTypeEth
  | stIPhead
  | stUDPhead
  | stPCFHead
  | stPTPhead
  | stEOF
  deriving DecidableEq, Repr

-- The registers that decide how the parser goes on.
structure Parser where
  stateReg : ParserState
  byteCntReg : Nat
  ethTypeReg : BitVec 16
  udpDstPortReg : BitVec 16
  udpSrcPortReg : BitVec 16
  ptpMsgTypeReg : BitVec 8
  isVLANFrameReg : Bool
  isUDPFrameReg : Bool
  isPTPFrameReg : Bool
  bufClrReg : Bool

namespace Parser
section
variable (p q : Parser) (regBuffer : BitVec 64)

def sofDetect : Bool := regBuffer = constSFD ∨ regBuffer = constSFD &&& 0x00FFFFFFFFFFFFFF#64

def start : Parser := ⟨.stDstMAC,0,0,0,0,0,false,false,false,false⟩

def counted (p : Parser) (wrByteReg : Bool) : Parser :=
  {p with byteCntReg := if wrByteReg then (p.byteCntReg+1) % 2^11 else p.byteCntReg, bufClrReg := false}

def collectSFD (q : Parser) (regBuffer : BitVec 64) : Parser := if sofDetect regBuffer then start else q

def address (later : ParserState) : Parser := if p.byteCntReg = 6 then {q with stateReg := later, byteCntReg := 0} else q

def typeEth : Parser :=
  if p.ethTypeReg ≠ 0 then
    if isVLAN p.ethTypeReg then {q with isVLANFrameReg := true, ethTypeReg := 0}
    else if isPTP p.ethTypeReg then {q with stateReg := .stPTPhead, isPTPFrameReg := true, byteCntReg := 0}
    else if p.ethTypeReg = constIPv4t then {q with stateReg := .stIPhead, byteCntReg := 0}
    else if p.ethTypeReg = constPCFt then {q with stateReg := .stPCFHead, byteCntReg := 0}
    else {q with stateReg := .stEOF, byteCntReg := 0}
  else if (p.byteCntReg = 2 ∧ !p.isVLANFrameReg) ∨ (p.byteCntReg = 6 ∧ p.isVLANFrameReg) then
    {q with ethTypeReg := regBuffer.extractLsb' 0 16}
  else q

def ipHead : Parser :=
  if p.byteCntReg = 20 then
    if p.isUDPFrameReg then {q with stateReg := .stUDPhead, byteCntReg := 0} else {q with stateReg := .stEOF}
  else if p.byteCntReg = 10 then
    if regBuffer.extractLsb' 0 8 = 17#8 then {q with isUDPFrameReg := true} else q
  else q

def udpHead : Parser :=
  if p.byteCntReg = 8 then
    if p.isPTPFrameReg then {q with stateReg := .stPTPhead, byteCntReg := 0} else {q with stateReg := .stEOF}
  else if p.byteCntReg = 4 then
    {q with udpDstPortReg := regBuffer.extractLsb' 16 16, udpSrcPortReg := regBuffer.extractLsb' 0 16}
  else if isPTPPort p.udpDstPortReg ∧ isPTPPort p.udpSrcPortReg then {q with isPTPFrameReg := true}
  else q

def ptpHead : Parser :=
  if p.byteCntReg = 1 then {q with ptpMsgTypeReg := regBuffer.extractLsb' 0 8}
  else if 2 < p.byteCntReg then
    if (p.ptpMsgTypeReg = constPTPDlyReqType ∧ p.byteCntReg = 44) ∨ (p.ptpMsgTypeReg ≠ constPTPDlyReqType ∧ p.byteCntReg = 34) then
      {q with stateReg := .stEOF}
    else q
  else q
end

def eof (p : Parser) (validPHYData : Bool) : Parser :=
  {p with byteCntReg := 0, bufClrReg := true, stateReg := if validPHYData then .stEOF else .stCollectSFD}

-- A byte that is written is counted unless the state sets the counter.
def next (p : Parser) (regBuffer : BitVec 64) (wrByteReg validPHYData : Bool) : Parser :=
  match p.stateReg with
  | .stCollectSFD => (p.counted wrByteReg).collectSFD regBuffer
  | .stDstMAC => p.address (p.counted wrByteReg) .stSrcMAC
  | .stSrcMAC => p.address (p.counted wrByteReg) .stTypeEth
  | .stTypeEth => p.typeEth (p.counted wrByteReg) regBuffer
  | .stIPhead => p.ipHead (p.counted wrByteReg) regBuffer
  | .stUDPhead => p.udpHead (p.counted wrByteReg) regBuffer
  | .stPCFHead => {p.counted wrByteReg with stateReg := .stEOF}
  | .stPTPhead => p.ptpHead (p.counted wrByteReg) regBuffer
  | .stEOF => p.eof validPHYData
end Parser

structure MIIChannel where
  clk : Bool
  dv : Bool
  data : BitVec 4
  err : Bool
end Mii

-- The RTC gives a timestamp of 64 bits.
structure MIITimestampUnit where
  miiDvReg : Bool
  miiDvReg2 : Bool
  miiErrReg : Bool
  miiErrReg2 : Bool
  miiClkReg : Bool
  miiClkReg2 : Bool
  miiDataReg : BitVec 4
  miiDataReg2 : BitVec 4
  deserializePHYbyte : Deserializer 4 8
  deserializePHYBuffer : Deserializer 8 64
  wrByteReg : Bool
  regBuffer : BitVec 64
  parser : Mii.Parser
  sfdReg : BitVec 8
  sofReg : Bool
  eofReg : Bool
  tempTimestampReg : BitVec 64
  rtcTimestampReg : BitVec 64
  timestampAvailReg : Bool
  masterReg : RegisterCommand
  dataReg : BitVec 32
  respReg : OcpResp

namespace MIITimestampUnit
open Mii

structure Inputs where
  miiChannel : MIIChannel
  rtcTimestamp : BitVec 64
  ocp : RegisterCommand

variable (u : MIITimestampUnit)

def validPHYData : Bool := u.miiDvReg2 && !u.miiErrReg2
def risingMIIEdge : Bool := u.miiClkReg && !u.miiClkReg2

def starts : Bool := u.parser.stateReg = .stCollectSFD ∧ Parser.sofDetect u.regBuffer

def stamps : Bool := u.parser.stateReg = .stPCFHead ∨ u.parser.stateReg = .stPTPhead

def reads (offset : BitVec 5) : Bool := u.masterReg.cmd = .rd ∧ u.masterReg.addr.extractLsb' 0 5 = offset
def clears : Bool := u.masterReg.cmd = .wr ∧ u.masterReg.addr.extractLsb' 0 5 = 0x08#5

def next (i : Inputs) : MIITimestampUnit where
  miiDvReg := i.miiChannel.dv
  miiDvReg2 := u.miiDvReg
  miiErrReg := i.miiChannel.err
  miiErrReg2 := u.miiErrReg
  miiClkReg := i.miiChannel.clk
  miiClkReg2 := u.miiClkReg
  miiDataReg := i.miiChannel.data
  miiDataReg2 := u.miiDataReg
  deserializePHYbyte :=
    u.deserializePHYbyte.next false (u.risingMIIEdge && u.validPHYData) u.parser.bufClrReg u.miiDataReg2
  deserializePHYBuffer :=
    u.deserializePHYBuffer.next true u.deserializePHYbyte.doneReg u.parser.bufClrReg u.deserializePHYbyte.shiftReg
  wrByteReg := u.deserializePHYbyte.doneReg
  regBuffer := if u.parser.stateReg = .stEOF then 0 else u.deserializePHYBuffer.shiftReg
  parser := u.parser.next u.regBuffer u.wrByteReg u.validPHYData
  sfdReg := if u.starts then u.regBuffer.extractLsb' 0 8 else if u.parser.stateReg = .stEOF then 0 else u.sfdReg
  sofReg := if u.starts then true else if u.parser.stateReg = .stEOF then false else u.sofReg
  eofReg := if u.starts then false else if u.parser.stateReg = .stEOF ∧ !u.validPHYData then true else u.eofReg
  tempTimestampReg := if u.starts then i.rtcTimestamp else u.tempTimestampReg
  rtcTimestampReg := if u.stamps then u.tempTimestampReg else u.rtcTimestampReg
  timestampAvailReg := if u.clears then false else if u.stamps then true else u.timestampAvailReg
  masterReg := i.ocp
  dataReg :=
    if u.reads 0x00 then u.rtcTimestampReg.extractLsb' 0 32
    else if u.reads 0x04 then u.rtcTimestampReg.extractLsb' 32 32
    else if u.reads 0x08 then (BitVec.ofBool u.timestampAvailReg).setWidth 32
    else u.dataReg
  respReg := if u.masterReg.cmd = .rd ∨ u.clears then .dva else .null
end MIITimestampUnit
end Patmos
