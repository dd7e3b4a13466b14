import Patmos.Udp
namespace Patmos.Ethlib
open OnesComplement BitVec List

structure TcpConnection where
  dstMac : MacAddress
  srcMac : MacAddress
  srcIp : IpAddress
  dstIp : IpAddress
  srcPort : BitVec 16
  dstPort : BitVec 16
  seqNum : BitVec 32
  ackNum : BitVec 32
  ipv4Id : BitVec 16

section
variable (m : Buffer) (pktAddr : Nat) (tcpLength : BitVec 16)

def wordAt (addr : Nat) : BitVec 32 :=
  (memIordByte m addr <<< 24)+(memIordByte m (addr+1) <<< 16)+(memIordByte m (addr+2) <<< 8)+memIordByte m (addr+3)

def hexAt (addr : Nat) : BitVec 32 := (memIordByte m addr <<< 8)+memIordByte m (addr+1)

def tcpGetSourcePort : BitVec 16 := (hexAt m (pktAddr+34)).setWidth 16
def tcpGetDestinationPort : BitVec 16 := (hexAt m (pktAddr+36)).setWidth 16
def tcpGetSeqnum : BitVec 32 := wordAt m (pktAddr+38)
def tcpGetAcknum : BitVec 32 := wordAt m (pktAddr+42)
def tcpGetHeaderLength : BitVec 8 := (memIordByte m (pktAddr+46) >>> 2).setWidth 8
def tcpGetFlags : BitVec 8 := (memIordByte m (pktAddr+47) &&& 0xFF#32).setWidth 8

def tcpGetDataLength : BitVec 16 := ipv4GetLength m pktAddr-20#16-(tcpGetHeaderLength m pktAddr).setWidth 16

def copyData (m : Buffer) (addr : Nat) (data : Nat → BitVec 8) : Nat → Nat → BitVec 8
  | 0 => data
  | n+1 => Function.update (copyData m addr data n) n ((memIordByte m (addr+n)).setWidth 8)

-- The data that is filled in and the number of its bytes.
def tcpGetData (data : Nat → BitVec 8) : (Nat → BitVec 8) × Nat :=
  (copyData m (pktAddr+34+(tcpGetHeaderLength m pktAddr).toNat) data (tcpGetDataLength m pktAddr).toNat,
    (tcpGetDataLength m pktAddr).toNat)

def hexSum (m : Buffer) (addr : Nat) (sum : BitVec 32) : Nat → BitVec 32
  | 0 => sum
  | n+1 => hexSum m addr sum n+hexAt m (addr+2*n)

def tcpPad : Buffer := if tcpLength &&& 1#16 = 0 then m else memIowrByte m (pktAddr+34+tcpLength.toNat) 0x00#32

def tcpComputeChecksum : Buffer × BitVec 16 :=
  let m := tcpPad m pktAddr tcpLength
  let sum := hexSum m (pktAddr+26) 0#32 2
  let sum := hexSum m (pktAddr+30) sum 2
  let sum := sum+0x0006#32+tcpLength.setWidth 32
  let sum := hexSum m (pktAddr+34) sum (((correctedLength tcpLength).toNat+1)/2)
  (m,(checksum sum).setWidth 16)
end

section Send
variable (c : TcpConnection) (flags dataLength : BitVec 16)

def tcpLength : BitVec 16 := dataLength+20#16
def tcpIpLength : BitVec 16 := tcpLength dataLength+20#16
def tcpFrameLength : BitVec 16 := tcpIpLength dataLength+14#16

def tcpWord : Nat → BitVec 32
  | 0 => pack (c.dstMac 0) (c.dstMac 1) (c.dstMac 2) (c.dstMac 3)
  | 1 => pack (c.dstMac 4) (c.dstMac 5) (c.srcMac 0) (c.srcMac 1)
  | 2 => pack (c.srcMac 2) (c.srcMac 3) (c.srcMac 4) (c.srcMac 5)
  | 3 => 0x08004500#32
  | 4 => halves (tcpIpLength dataLength) c.ipv4Id
  | 5 => 0x40004006#32
  | 6 => pack 0#8 0#8 (c.srcIp 0) (c.srcIp 1)
  | 7 => pack (c.srcIp 2) (c.srcIp 3) (c.dstIp 0) (c.dstIp 1)
  | 8 => pack (c.dstIp 2) (c.dstIp 3) 0#8 0#8 ||| c.srcPort.setWidth 32
  | 9 => (c.dstPort.setWidth 32 <<< 16) ||| ((c.seqNum >>> 24) <<< 8) ||| ((c.seqNum >>> 16) &&& 0xFF#32)
  | 10 => (((c.seqNum >>> 8) &&& 0xFF#32) <<< 24) ||| ((c.seqNum &&& 0xFF#32) <<< 16) ||| ((c.ackNum >>> 24) <<< 8) |||
      ((c.ackNum >>> 16) &&& 0xFF#32)
  | 11 => (((c.ackNum >>> 8) &&& 0xFF#32) <<< 24) ||| ((c.ackNum &&& 0xFF#32) <<< 16) |||
      ((((tcpLength dataLength).setWidth 32-dataLength.setWidth 32) <<< 2) <<< 8) ||| ((flags.setWidth 8).setWidth 32 &&& 0xFF#32)
  | 12 => (0x72#32 <<< 24) ||| (0x10#32 <<< 16) ||| 0x0000#32
  | _ => 0x0000#32

-- The second result is the length that the controller is given.
def tcpSend (m : Buffer) (txAddr : Nat) (data : Nat → BitVec 8) : Buffer × BitVec 16 :=
  let m := writeWords m txAddr (tcpWord c flags dataLength) 14
  let m := writeData m (txAddr+54) data dataLength.toNat
  let m := writeChecksum m (txAddr+24) (ipv4ComputeChecksum m txAddr)
  let (m,checksum) := tcpComputeChecksum m txAddr (tcpLength dataLength)
  (writeChecksum m (txAddr+50) checksum,tcpFrameLength dataLength)
end Send

-- The segment as a sequence of octets, zero behind its end, and the words that the checksum is defined over.
def segmentOctet (m : Buffer) (pktAddr length j : Nat) : Nat := if j < length then (memIordByte m (pktAddr+34+j)).toNat else 0

def segmentWords (m : Buffer) (pktAddr length : Nat) : List Nat :=
  (range ((length+1)/2)).map fun i => segmentOctet m pktAddr length (2*i)*2^8+segmentOctet m pktAddr length (2*i+1)

def pseudoWords (m : Buffer) (pktAddr length : Nat) : List Nat :=
  [26,28,30,32].map (fun k => (memIordByte m (pktAddr+k)).toNat*2^8+(memIordByte m (pktAddr+k+1)).toNat) ++ [6,length]

-- The receiving side takes the frame for what was sent.
structure TcpAccepted (m : Buffer) (pktAddr : Nat) (c : TcpConnection) (flags : BitVec 8) (data : Nat → BitVec 8) (length : Nat) :
    Prop where
  ipv4Checksum : ipv4VerifyChecksum m pktAddr = 1
  tcpChecksum : total (pseudoWords m pktAddr (length+20) ++ segmentWords m pktAddr (length+20)) = 0xFFFF
  sourcePort : tcpGetSourcePort m pktAddr = c.srcPort
  destinationPort : tcpGetDestinationPort m pktAddr = c.dstPort
  seqnum : tcpGetSeqnum m pktAddr = c.seqNum
  acknum : tcpGetAcknum m pktAddr = c.ackNum
  flags : tcpGetFlags m pktAddr = flags
  dataLength : (tcpGetDataLength m pktAddr).toNat = length
  data : ∀ old, (tcpGetData m pktAddr old).2 = length ∧ (∀ i < length, (tcpGetData m pktAddr old).1 i = data i) ∧
    ∀ i, length ≤ i → (tcpGetData m pktAddr old).1 i = old i

section Octets
def octet (x : BitVec w) (k : Nat) : BitVec 8 := (x >>> (8*k)).setWidth 8

theorem octet_toNat (x : BitVec w) (k : Nat) : (octet x k).toNat = x.toNat/2^(8*k) % 2^8 := by
  unfold octet
  rw [toNat_setWidth,toNat_ushiftRight,Nat.shiftRight_eq_div_pow]

theorem octet_masked (x : BitVec 32) (k : Nat) : (x >>> (8*k)) &&& 0xFF#32 = (octet x k).setWidth 32 := by
  apply eq_of_toNat_eq
  have small := Nat.mod_lt (x.toNat/2^(8*k)) (show 0 < 2^8 by decide)
  rw [masked_toNat,toNat_setWidth,octet_toNat,toNat_ushiftRight,Nat.shiftRight_eq_div_pow,
    Nat.mod_eq_of_lt (small.trans (by decide))]

theorem octet_top (x : BitVec 32) : x >>> 24 = (octet x 3).setWidth 32 := by
  apply eq_of_toNat_eq
  rw [toNat_setWidth,octet_toNat,toNat_ushiftRight]
  omega

theorem octets_port (port : BitVec 16) :
    port.setWidth 32 = ((octet port 1).setWidth 32 <<< 8) ||| (octet port 0).setWidth 32 := by
  apply eq_of_getLsbD_eq
  intro i inside
  unfold octet
  by_cases low : i < 8
  · simp [low]
  · by_cases inner : i < 16
    · simp [low,show i-8 < 8 by omega,show i-8 < 32 by omega,show 8+(i-8) = i by omega]
    · simp [show ¬i-8 < 8 by omega,getLsbD_of_ge port i (by omega)]

theorem lane_octet (a b c d : BitVec 8) (addr : Nat) :
    (lane (pack a b c d) addr).toNat =
      (if addr % 4 = 0 then a else if addr % 4 = 1 then b else if addr % 4 = 2 then c else d).toNat := by
  rw [← lane_pack,toNat_setWidth,Nat.mod_eq_of_lt (lane_toNat _ _)]

theorem hexAt_eq (m : Buffer) (addr : Nat) : hexAt m addr = pairAt m addr := by
  unfold hexAt pairAt
  rw [iordByte_masked]

theorem hexSum_eq (m : Buffer) (addr : Nat) (sum : BitVec 32) (n : Nat) : hexSum m addr sum n = sum+pairSum m addr n := by
  induction n with
  | zero => exact (add_zero sum).symm
  | succ n ih => rw [hexSum,pairSum,ih,hexAt_eq,add_assoc]

theorem wordAt_toNat (m : Buffer) (addr : Nat) :
    (wordAt m addr).toNat = (memIordByte m addr).toNat*2^24+(memIordByte m (addr+1)).toNat*2^16+
      (memIordByte m (addr+2)).toNat*2^8+(memIordByte m (addr+3)).toNat := by
  have first := iordByte_toNat m addr
  have second := iordByte_toNat m (addr+1)
  have third := iordByte_toNat m (addr+2)
  have fourth := iordByte_toNat m (addr+3)
  unfold wordAt
  simp only [toNat_add,toNat_shiftLeft]
  omega

theorem hexAt_octets {port : BitVec 16} (high : (memIordByte m a).toNat = (octet port 1).toNat)
    (low : (memIordByte m (a+1)).toNat = (octet port 0).toNat) : (hexAt m a).setWidth 16 = port := by
  apply eq_of_toNat_eq
  rw [hexAt_eq,toNat_setWidth,pairAt_toNat,high,low,octet_toNat,octet_toNat]
  omega

theorem wordAt_octets {number : BitVec 32} (first : (memIordByte m a).toNat = (octet number 3).toNat)
    (second : (memIordByte m (a+1)).toNat = (octet number 2).toNat) (third : (memIordByte m (a+2)).toNat = (octet number 1).toNat)
    (fourth : (memIordByte m (a+3)).toNat = (octet number 0).toNat) : wordAt m a = number := by
  apply eq_of_toNat_eq
  rw [wordAt_toNat,first,second,third,fourth]
  simp only [octet_toNat]
  omega

theorem pairSum_toNat (m : Buffer) (addr n : Nat) (few : n ≤ 2^15) :
    (pairSum m addr n).toNat = ((range n).map fun i => (pairAt m (addr+2*i)).toNat).sum := by
  induction n with
  | zero => rfl
  | succ n ih =>
    have before := pairSum_le m addr n (by omega)
    have pair := pairAt_lt m (addr+2*n)
    rw [range_succ,map_append,sum_append,pairSum,toNat_add]
    simp only [map_cons,map_nil,sum_cons,sum_nil]
    omega

theorem copyData_get (m : Buffer) (addr : Nat) (data : Nat → BitVec 8) (n i : Nat) :
    copyData m addr data n i = if i < n then (memIordByte m (addr+i)).setWidth 8 else data i := by
  induction n with
  | zero => rfl
  | succ n ih =>
    rw [copyData]
    by_cases last : i = n
    · rw [last,Function.update_self,if_pos (Nat.lt_succ_self n)]
    · rw [Function.update_of_ne last,ih]
      exact if_congr (by omega) rfl rfl
end Octets

def tcpTotal (m : Buffer) (pktAddr length n : Nat) : Nat :=
  (pairAt m (pktAddr+26)).toNat+(pairAt m (pktAddr+28)).toNat+(pairAt m (pktAddr+30)).toNat+(pairAt m (pktAddr+32)).toNat+6+length+
    (pairSum m (pktAddr+34) n).toNat

def tcpSum (m : Buffer) (pktAddr : Nat) (length : BitVec 16) (n : Nat) : BitVec 32 :=
  0#32+pairSum m (pktAddr+26) 2+pairSum m (pktAddr+30) 2+0x0006#32+length.setWidth 32+pairSum m (pktAddr+34) n

theorem tcpSum_toNat (m : Buffer) (pktAddr : Nat) (length : BitVec 16) (many : n ≤ 2^15) :
    (tcpSum m pktAddr length n).toNat = tcpTotal m pktAddr length.toNat n := by
  have rest := pairSum_le m (pktAddr+34) n many
  have one := pairAt_lt m (pktAddr+26)
  have two := pairAt_lt m (pktAddr+28)
  have three := pairAt_lt m (pktAddr+30)
  have four := pairAt_lt m (pktAddr+32)
  have pairs (a : Nat) : (pairSum m a 2).toNat = (pairAt m a).toNat+(pairAt m (a+2)).toNat := by
    have first := pairAt_lt m a
    have second := pairAt_lt m (a+2)
    show (0#32+pairAt m a+pairAt m (a+2)).toNat = _
    rw [BitVec.zero_add,BitVec.toNat_add_of_lt (by omega)]
  have source : _ = (pairAt m (pktAddr+26)).toNat+(pairAt m (pktAddr+28)).toNat := pairs (pktAddr+26)
  have destination : _ = (pairAt m (pktAddr+30)).toNat+(pairAt m (pktAddr+32)).toNat := pairs (pktAddr+30)
  have protocol : (0x0006#32).toNat = 6 := rfl
  have extended : (length.setWidth 32).toNat = length.toNat := by
    rw [toNat_setWidth]
    omega
  unfold tcpSum tcpTotal
  rw [BitVec.zero_add]
  have ips := toNat_add_of_lt (x := pairSum m (pktAddr+26) 2) (y := pairSum m (pktAddr+30) 2) (by omega)
  have typed := toNat_add_of_lt (x := pairSum m (pktAddr+26) 2+pairSum m (pktAddr+30) 2) (y := 0x0006#32) (by omega)
  have sized := toNat_add_of_lt (x := pairSum m (pktAddr+26) 2+pairSum m (pktAddr+30) 2+0x0006#32)
    (y := length.setWidth 32) (by omega)
  rw [toNat_add_of_lt (by omega),sized,typed,ips,source,destination,protocol,extended]
  simp only [Nat.add_assoc]

section Words
variable (c : TcpConnection) (flags : BitVec 16) {dataLength : BitVec 16}

theorem tcpWord_ports : tcpWord c flags dataLength 8 = pack (c.dstIp 2) (c.dstIp 3) (octet c.srcPort 1) (octet c.srcPort 0) := by
  have low : (0#8).setWidth 32 = 0#32 := rfl
  show pack (c.dstIp 2) (c.dstIp 3) 0#8 0#8 ||| c.srcPort.setWidth 32 = _
  unfold pack
  rw [octets_port,low,zero_shiftLeft,or_zero,or_zero,or_assoc _ _ ((octet c.srcPort 0).setWidth 32)]

theorem tcpWord_port : tcpWord c flags dataLength 9 =
    pack (octet c.dstPort 1) (octet c.dstPort 0) (octet c.seqNum 3) (octet c.seqNum 2) := by
  show (c.dstPort.setWidth 32 <<< 16) ||| ((c.seqNum >>> 24) <<< 8) ||| ((c.seqNum >>> 16) &&& 0xFF#32) = _
  unfold pack
  rw [octets_port,octet_top,octet_masked c.seqNum 2,shiftLeft_or_distrib,← shiftLeft_add]

theorem tcpWord_numbers : tcpWord c flags dataLength 10 =
    pack (octet c.seqNum 1) (octet c.seqNum 0) (octet c.ackNum 3) (octet c.ackNum 2) := by
  have low := octet_masked c.seqNum 0
  rw [ushiftRight_zero] at low
  show (((c.seqNum >>> 8) &&& 0xFF#32) <<< 24) ||| ((c.seqNum &&& 0xFF#32) <<< 16) ||| ((c.ackNum >>> 24) <<< 8) |||
    ((c.ackNum >>> 16) &&& 0xFF#32) = _
  unfold pack
  rw [octet_masked c.seqNum 1,low,octet_top,octet_masked c.ackNum 2]

theorem tcpLength_toNat (few : dataLength.toNat ≤ 65481) : (tcpLength dataLength).toNat = dataLength.toNat+20 := by
  unfold tcpLength
  rw [toNat_add,toNat_ofNat]
  omega

theorem tcpWord_flags (few : dataLength.toNat ≤ 65481) : tcpWord c flags dataLength 11 =
    pack (octet c.ackNum 1) (octet c.ackNum 0) 0x50#8 (flags.setWidth 8) := by
  have low := octet_masked c.ackNum 0
  rw [ushiftRight_zero] at low
  have header : (tcpLength dataLength).setWidth 32-dataLength.setWidth 32 = 20#32 := by
    apply eq_of_toNat_eq
    rw [toNat_sub,toNat_setWidth,toNat_setWidth,tcpLength_toNat few,toNat_ofNat]
    omega
  have flagByte : (flags.setWidth 8).setWidth 32 &&& 0xFF#32 = (flags.setWidth 8).setWidth 32 := by
    have same := octet_masked ((flags.setWidth 8).setWidth 32) 0
    rw [ushiftRight_zero] at same
    rw [same]
    unfold octet
    rw [ushiftRight_zero,setWidth_setWidth_of_le (flags.setWidth 8) (show 8 ≤ 32 by decide),
      setWidth_eq]
  show (((c.ackNum >>> 8) &&& 0xFF#32) <<< 24) ||| ((c.ackNum &&& 0xFF#32) <<< 16) |||
    ((((tcpLength dataLength).setWidth 32-dataLength.setWidth 32) <<< 2) <<< 8) ||| ((flags.setWidth 8).setWidth 32 &&& 0xFF#32) = _
  rw [octet_masked c.ackNum 1,low,header,flagByte]
  rfl
end Words

def HasHeader (u : Buffer) (q : Nat) (c : TcpConnection) (flags dataLength : BitVec 16) : Prop :=
  ∀ j < 54, j/2 ≠ 12 → j/2 ≠ 25 → memIordByte u (4*q+j) = lane (tcpWord c flags dataLength (j/4)) j

namespace HasHeader
variable {u : Buffer} {c : TcpConnection} {flags dataLength : BitVec 16} (header : HasHeader u q c flags dataLength)
include header

theorem octet (j : Nat) (inside : j < 54) (first : j/2 ≠ 12) (second : j/2 ≠ 25) {a₀ a₁ a₂ a₃ : BitVec 8}
    (word : tcpWord c flags dataLength (j/4) = pack a₀ a₁ a₂ a₃) : (memIordByte u (4*q+j)).toNat =
      (if j % 4 = 0 then a₀ else if j % 4 = 1 then a₁ else if j % 4 = 2 then a₂ else a₃).toNat := by
  rw [header j inside first second,word,lane_octet]

theorem sourcePort : tcpGetSourcePort u (4*q) = c.srcPort :=
  hexAt_octets (header.octet 34 (by decide) (by decide) (by decide) (tcpWord_ports c flags))
    (header.octet 35 (by decide) (by decide) (by decide) (tcpWord_ports c flags))

theorem destinationPort : tcpGetDestinationPort u (4*q) = c.dstPort :=
  hexAt_octets (header.octet 36 (by decide) (by decide) (by decide) (tcpWord_port c flags))
    (header.octet 37 (by decide) (by decide) (by decide) (tcpWord_port c flags))

theorem seqnum : tcpGetSeqnum u (4*q) = c.seqNum :=
  wordAt_octets (header.octet 38 (by decide) (by decide) (by decide) (tcpWord_port c flags))
    (header.octet 39 (by decide) (by decide) (by decide) (tcpWord_port c flags))
    (header.octet 40 (by decide) (by decide) (by decide) (tcpWord_numbers c flags))
    (header.octet 41 (by decide) (by decide) (by decide) (tcpWord_numbers c flags))

variable (few : dataLength.toNat ≤ 65481)
include few

theorem acknum : tcpGetAcknum u (4*q) = c.ackNum :=
  wordAt_octets (header.octet 42 (by decide) (by decide) (by decide) (tcpWord_numbers c flags))
    (header.octet 43 (by decide) (by decide) (by decide) (tcpWord_numbers c flags))
    (header.octet 44 (by decide) (by decide) (by decide) (tcpWord_flags c flags few))
    (header.octet 45 (by decide) (by decide) (by decide) (tcpWord_flags c flags few))

theorem headerLength : tcpGetHeaderLength u (4*q) = 20#8 := by
  have length := header.octet 46 (by decide) (by decide) (by decide) (tcpWord_flags c flags few)
  apply eq_of_toNat_eq
  unfold tcpGetHeaderLength
  rw [toNat_setWidth,toNat_ushiftRight,length]
  simp

theorem flagsByte : tcpGetFlags u (4*q) = flags.setWidth 8 := by
  have value := header.octet 47 (by decide) (by decide) (by decide) (tcpWord_flags c flags few)
  apply eq_of_toNat_eq
  unfold tcpGetFlags
  rw [toNat_setWidth,masked_toNat,value]
  simp only [Nat.reduceMod,Nat.reduceEqDiff,if_false]
  omega

theorem dataLength_toNat : (tcpGetDataLength u (4*q)).toNat = dataLength.toNat := by
  have total : (tcpIpLength dataLength).toNat = dataLength.toNat+40 := by
    unfold tcpIpLength
    rw [toNat_add,tcpLength_toNat few,toNat_ofNat]
    omega
  have length : (ipv4GetLength u (4*q)).toNat = dataLength.toNat+40 := by
    unfold ipv4GetLength
    rw [header 16 (by decide) (by decide) (by decide),header 17 (by decide) (by decide) (by decide),← total]
    exact congrArg _ (halves_bytes (tcpIpLength dataLength) c.ipv4Id)
  unfold tcpGetDataLength
  rw [header.headerLength few,toNat_sub,toNat_sub]
  simp only [toNat_setWidth,toNat_ofNat]
  omega
end HasHeader

section Sent
variable (m : Buffer) (q : Nat) (c : TcpConnection) (flags : BitVec 16) (data : Nat → BitVec 8) {dataLength : BitVec 16}

def tcpFilled (dataLength : BitVec 16) : Buffer :=
  writeData (writeWords m (4*q) (tcpWord c flags dataLength) 14) (4*q+54) data dataLength.toNat

def tcpLabelled (dataLength : BitVec 16) : Buffer :=
  writeChecksum (tcpFilled m q c flags data dataLength) (4*q+24) (ipv4ComputeChecksum (tcpFilled m q c flags data dataLength) (4*q))

def tcpPadded (dataLength : BitVec 16) : Buffer :=
  tcpPad (tcpLabelled m q c flags data dataLength) (4*q) (tcpLength dataLength)

theorem tcpSend_eq (dataLength : BitVec 16) : (tcpSend c flags dataLength m (4*q) data).1 =
    writeChecksum (tcpPadded m q c flags data dataLength) (4*q+50)
      (tcpComputeChecksum (tcpLabelled m q c flags data dataLength) (4*q) (tcpLength dataLength)).2 := rfl

theorem tcpSend_bytes (third : a ≠ 4*q+50) (fourth : a ≠ 4*q+51) :
    memIordByte (tcpSend c flags dataLength m (4*q) data).1 a = memIordByte (tcpPadded m q c flags data dataLength) a := by
  rw [tcpSend_eq,iordByte_writeChecksum _ _ _ _ third fourth]

theorem tcpFilled_byte (inside : j < 54) :
    memIordByte (tcpFilled m q c flags data dataLength) (4*q+j) = lane (tcpWord c flags dataLength (j/4)) j :=
  frame_byte m q _ data _ inside (by omega)

theorem tcpSend_ipv4Checksum : ipv4VerifyChecksum (tcpSend c flags dataLength m (4*q) data).1 (4*q) = 1 := by
  have same : pairSum (tcpSend c flags dataLength m (4*q) data).1 (4*q+14) 10 =
      pairSum (tcpLabelled m q c flags data dataLength) (4*q+14) 10 := by
    refine pairSum_congr fun a low high => ?_
    rw [tcpSend_eq,iordByte_writeChecksum _ _ _ _ (by omega) (by omega)]
    unfold tcpPadded tcpPad
    split
    · rfl
    · rw [iordByte_iowrByte,if_neg (by omega)]
  have low : memIordByte (tcpFilled m q c flags data dataLength) (4*q+25) = 0 :=
    (tcpFilled_byte m q c flags data (by decide)).trans (lane_pack_zero _ _ (by decide))
  unfold ipv4VerifyChecksum
  rw [same]
  exact ipv4_checksum_verified.mpr low

section Range
variable (few : dataLength.toNat ≤ 65481)
include few

theorem tcpPadded_byte (first : a ≠ 4*q+24) (second : a ≠ 4*q+25) (last : a ≠ 4*q+54+dataLength.toNat) :
    memIordByte (tcpPadded m q c flags data dataLength) a = memIordByte (tcpFilled m q c flags data dataLength) a := by
  have length := tcpLength_toNat few
  have labelled : memIordByte (tcpLabelled m q c flags data dataLength) a = memIordByte (tcpFilled m q c flags data dataLength) a :=
    iordByte_writeChecksum _ _ _ _ first second
  unfold tcpPadded tcpPad
  split
  · exact labelled
  · rw [iordByte_iowrByte,if_neg (by omega),labelled]

theorem tcpSend_byte (first : a ≠ 4*q+24) (second : a ≠ 4*q+25) (third : a ≠ 4*q+50) (fourth : a ≠ 4*q+51)
    (last : a ≠ 4*q+54+dataLength.toNat) :
    memIordByte (tcpSend c flags dataLength m (4*q) data).1 a = memIordByte (tcpFilled m q c flags data dataLength) a := by
  rw [tcpSend_bytes m q c flags data third fourth,tcpPadded_byte m q c flags data few first second last]

theorem tcpSend_header : HasHeader (tcpSend c flags dataLength m (4*q) data).1 q c flags dataLength := by
  intro j inside first second
  rw [tcpSend_byte m q c flags data few (by omega) (by omega) (by omega) (by omega) (by omega),
    tcpFilled_byte m q c flags data inside]

theorem tcpSend_data (inside : i < dataLength.toNat) :
    memIordByte (tcpSend c flags dataLength m (4*q) data).1 (4*q+54+i) = (data i).setWidth 32 := by
  rw [tcpSend_byte m q c flags data few (by omega) (by omega) (by omega) (by omega) (by omega),
    tcpFilled,frame_data _ _ data inside]

theorem tcp_odd : tcpLength dataLength &&& 1#16 = 0 ↔ (dataLength.toNat+20) % 2 = 0 := by
  have length := tcpLength_toNat few
  have masked : (tcpLength dataLength &&& 1#16).toNat = (dataLength.toNat+20) % 2 := by
    rw [toNat_and,length]
    exact Nat.and_two_pow_sub_one_eq_mod _ 1
  constructor
  · intro zero
    rw [← masked,zero]
    rfl
  · intro even
    exact eq_of_toNat_eq (masked.trans even)

theorem tcp_pairs : ((correctedLength (tcpLength dataLength)).toNat+1)/2 = (dataLength.toNat+20+1)/2 := by
  have length := tcpLength_toNat few
  have odd := tcp_odd few
  unfold correctedLength
  split
  case isTrue => rw [length]
  case isFalse other =>
    have parity := mt odd.mpr other
    rw [toNat_add,toNat_ofNat]
    omega

theorem tcpSend_pad (odd : (dataLength.toNat+20) % 2 = 1) :
    memIordByte (tcpSend c flags dataLength m (4*q) data).1 (4*q+34+(dataLength.toNat+20)) = 0 := by
  have length := tcpLength_toNat few
  rw [tcpSend_eq,iordByte_writeChecksum _ _ _ _ (by omega) (by omega)]
  unfold tcpPadded tcpPad
  rw [if_neg (fun even => by have := (tcp_odd few).mp even; omega),iordByte_iowrByte,if_pos (by rw [length])]
  rfl

theorem tcpSend_words : segmentWords (tcpSend c flags dataLength m (4*q) data).1 (4*q) (dataLength.toNat+20) =
    (range ((dataLength.toNat+20+1)/2)).map fun i =>
      (pairAt (tcpSend c flags dataLength m (4*q) data).1 (4*q+34+2*i)).toNat := by
  refine map_congr_left fun i inside => ?_
  have inside := mem_range.mp inside
  rw [pairAt_toNat]
  unfold segmentOctet
  rw [if_pos (by omega)]
  by_cases whole : 2*i+1 < dataLength.toNat+20
  · rw [if_pos whole]
    rfl
  · have last : 4*q+34+2*i+1 = 4*q+34+(dataLength.toNat+20) := by omega
    rw [if_neg whole,last,tcpSend_pad m q c flags data few (by omega)]
    rfl

theorem tcpPadded_zero : pairAt (tcpPadded m q c flags data dataLength) (4*q+50) = 0 := by
  have byte (j : Nat) (inside : j < 54) (late : 26 ≤ j) :
      memIordByte (tcpPadded m q c flags data dataLength) (4*q+j) = lane (tcpWord c flags dataLength (j/4)) j := by
    rw [tcpPadded_byte m q c flags data few (by omega) (by omega) (by omega),tcpFilled_byte m q c flags data inside]
  unfold pairAt
  rw [byte 50 (by decide) (by decide),byte 51 (by decide) (by decide)]
  show (lane ((0x72#32 <<< 24) ||| (0x10#32 <<< 16) ||| 0x0000#32) 50 <<< 8)+
    (lane ((0x72#32 <<< 24) ||| (0x10#32 <<< 16) ||| 0x0000#32) 51 &&& 0xFF#32) = 0
  decide

theorem tcpSend_checksum : pairAt (tcpSend c flags dataLength m (4*q) data).1 (4*q+50) =
    checksum (tcpSum (tcpPadded m q c flags data dataLength) (4*q) (tcpLength dataLength) ((dataLength.toNat+20+1)/2)) := by
  rw [tcpSend_eq,pairAt_writeChecksum,← checksum_whole]
  unfold tcpComputeChecksum
  simp only [hexSum_eq,tcp_pairs few]
  rfl

theorem tcpSend_total : ∃ k,
    tcpTotal (tcpSend c flags dataLength m (4*q) data).1 (4*q) (dataLength.toNat+20) ((dataLength.toNat+20+1)/2) = (k+1)*65535 := by
  have length := tcpLength_toNat few
  have value := tcpSend_checksum m q c flags data few
  have zero := tcpPadded_zero m q c flags data few
  have bytes (a : Nat) := @tcpSend_bytes m q c flags data dataLength a
  have many : (dataLength.toNat+20+1)/2 ≤ 2^15 := by omega
  have long : 8 < (dataLength.toNat+20+1)/2 := by omega
  generalize (tcpSend c flags dataLength m (4*q) data).1 = u at *
  generalize tcpPadded m q c flags data dataLength = p at *
  generalize (dataLength.toNat+20+1)/2 = n at *
  have sum := tcpSum_toNat p (4*q) (tcpLength dataLength) many
  obtain ⟨k,complement⟩ := checksum_complements (tcpSum p (4*q) (tcpLength dataLength) n)
  have header (a : Nat) (high : a < 4*q+49) : pairAt u a = pairAt p a :=
    pairAt_congr (bytes _ (by omega) (by omega)) (bytes _ (by omega) (by omega))
  have patched : pairSum u (4*q+34) n = pairSum p (4*q+34) n+checksum (tcpSum p (4*q) (tcpLength dataLength) n) := by
    have same := pairSum_exchange (4*q+34) long fun a _ _ other another => (bytes a other another).symm
    rwa [zero,sub_zero,sub_eq_iff_eq_add,value] at same
  have rest := pairSum_le p (4*q+34) n many
  have small := checksum_small (tcpSum p (4*q) (tcpLength dataLength) n)
  refine ⟨k,?_⟩
  rw [← complement,sum,length]
  unfold tcpTotal
  rw [header _ (by omega),header _ (by omega),header _ (by omega),header _ (by omega),patched,toNat_add_of_lt (by omega),
    Nat.add_assoc _ (pairSum p (4*q+34) n).toNat]

theorem tcpSend_tcpChecksum :
    total (pseudoWords (tcpSend c flags dataLength m (4*q) data).1 (4*q) (dataLength.toNat+20) ++
      segmentWords (tcpSend c flags dataLength m (4*q) data).1 (4*q) (dataLength.toNat+20)) = 0xFFFF := by
  obtain ⟨k,multiple⟩ := tcpSend_total m q c flags data few
  have words := tcpSend_words m q c flags data few
  have many : (dataLength.toNat+20+1)/2 ≤ 2^15 := by omega
  have short : dataLength.toNat+20 < 2^16 := by omega
  generalize (tcpSend c flags dataLength m (4*q) data).1 = u at *
  have pseudo : pseudoWords u (4*q) (dataLength.toNat+20) =
      [(pairAt u (4*q+26)).toNat,(pairAt u (4*q+28)).toNat,(pairAt u (4*q+30)).toNat,(pairAt u (4*q+32)).toNat,6,
        dataLength.toNat+20] := by
    simp only [pairAt_toNat]
    rfl
  rw [pseudo,words]
  refine total_full (k := k) ?_ ?_
  · intro w member
    rcases mem_append.mp member with pseudo | segment
    · simp only [mem_cons,not_mem_nil,or_false] at pseudo
      rcases pseudo with rfl | rfl | rfl | rfl | rfl | rfl
      · exact pairAt_lt _ _
      · exact pairAt_lt _ _
      · exact pairAt_lt _ _
      · exact pairAt_lt _ _
      · decide
      · exact short
    · obtain ⟨i,-,rfl⟩ := mem_map.mp segment
      exact pairAt_lt _ _
  · rw [sum_append,← pairSum_toNat u _ _ many,← multiple]
    simp only [sum_cons,sum_nil,tcpTotal,Nat.add_assoc,Nat.add_zero]
end Range
end Sent

theorem tcp_send_accepted (m : Buffer) (txAddr : Nat) (aligned : txAddr % 4 = 0) (c : TcpConnection) (flags : BitVec 16)
    (data : Nat → BitVec 8) (dataLength : BitVec 16) (few : dataLength.toNat ≤ 65481) :
    TcpAccepted (tcpSend c flags dataLength m txAddr data).1 txAddr c (flags.setWidth 8) data dataLength.toNat := by
  obtain ⟨q,rfl⟩ : ∃ q, txAddr = 4*q := ⟨txAddr/4,by omega⟩
  have header := tcpSend_header m q c flags data few
  refine ⟨tcpSend_ipv4Checksum m q c flags data,tcpSend_tcpChecksum m q c flags data few,header.sourcePort,
    header.destinationPort,header.seqnum,header.acknum few,header.flagsByte few,header.dataLength_toNat few,?_⟩
  intro old
  have length := header.dataLength_toNat few
  have start : 4*q+34+(tcpGetHeaderLength (tcpSend c flags dataLength m (4*q) data).1 (4*q)).toNat = 4*q+54 := by
    rw [header.headerLength few]
    rfl
  unfold tcpGetData
  simp only [length,start,copyData_get]
  refine ⟨trivial,fun i inside => ?_,fun i outside => if_neg outside.not_gt⟩
  rw [if_pos inside,tcpSend_data m q c flags data few inside]
  exact setWidth_setWidth_of_le _ (by decide)

theorem tcp_send_accepted_odd :
    TcpAccepted (tcpSend ⟨fun _ => 2,fun _ => 0xFF,fun _ => 192,fun _ => 10,80,0xC001,0x12345678,0x9ABCDEF0,0x1111⟩ 0x18 3
        (fun _ => 0xA5A5A5A5) 0x800 fun i => .ofNat 8 (i+7)).1
      0x800 ⟨fun _ => 2,fun _ => 0xFF,fun _ => 192,fun _ => 10,80,0xC001,0x12345678,0x9ABCDEF0,0x1111⟩ 0x18
      (fun i => .ofNat 8 (i+7)) 3 :=
  tcp_send_accepted _ _ (by decide) _ _ _ _ (by decide)

section Reception
-- A byte of the frame, or one of the caller's buffer.
inductive Access where
  | read (offset : Nat)
  | write (index : Nat)
  deriving DecidableEq

def lengthReads : List Access := [.read 16,.read 17,.read 46]

-- The loop of tcp_get_data computes both lengths anew in every round. It does not use the capacity.
def tcpGetDataAccesses (m : Buffer) (pktAddr : Nat) : List Access :=
  (range (tcpGetDataLength m pktAddr).toNat).flatMap (fun i =>
    lengthReads ++ [.read 46,.read (34+(tcpGetHeaderLength m pktAddr).toNat+i),.write i]) ++ lengthReads

def dataOffset (m : Buffer) (pktAddr : Nat) : Nat := (memIordByte m (pktAddr+46)).toNat/16

structure ReceivesSafely (m : Buffer) (pktAddr capacity : Nat) : Prop where
  writes : ∀ i, .write i ∈ tcpGetDataAccesses m pktAddr → i < capacity
  reads : ∀ j, .read j ∈ tcpGetDataAccesses m pktAddr → j < 14+(ipv4GetLength m pktAddr).toNat
  length : (tcpGetDataLength m pktAddr).toNat = (ipv4GetLength m pktAddr).toNat-20-4*dataOffset m pktAddr

-- The reserved bits are clear, the headers fit into the packet and the data into the buffer.
structure Receivable (m : Buffer) (pktAddr capacity : Nat) : Prop where
  reserved : (memIordByte m (pktAddr+46)).toNat/4 % 4 = 0
  headers : 20+4*dataOffset m pktAddr ≤ (ipv4GetLength m pktAddr).toNat
  offset : 33 ≤ (ipv4GetLength m pktAddr).toNat
  room : (ipv4GetLength m pktAddr).toNat ≤ capacity+20+4*dataOffset m pktAddr

variable (m : Buffer) (pktAddr : Nat)

theorem write_accessed : .write i ∈ tcpGetDataAccesses m pktAddr ↔ i < (tcpGetDataLength m pktAddr).toNat := by
  simp [tcpGetDataAccesses,lengthReads]

theorem read_accessed (read : .read j ∈ tcpGetDataAccesses m pktAddr) :
    j ≤ 46 ∨ ∃ i < (tcpGetDataLength m pktAddr).toNat, j = 34+(tcpGetHeaderLength m pktAddr).toNat+i := by
  simp only [tcpGetDataAccesses,lengthReads,mem_append,mem_flatMap,mem_range,mem_cons,not_mem_nil,
    Access.read.injEq,reduceCtorEq,or_false] at read
  rcases read with ⟨i,inside,early | field | data⟩ | late
  · exact .inl (by omega)
  · exact .inl (by omega)
  · exact .inr ⟨i,inside,data⟩
  · exact .inl (by omega)

theorem tcpGetData_accessed (data : Nat → BitVec 8) : (tcpGetData m pktAddr data).1 i =
    if .write i ∈ tcpGetDataAccesses m pktAddr then
      (memIordByte m (pktAddr+34+(tcpGetHeaderLength m pktAddr).toNat+i)).setWidth 8 else data i :=
  (copyData_get ..).trans (if_congr (write_accessed m pktAddr).symm rfl rfl)

theorem headerLength_toNat : (tcpGetHeaderLength m pktAddr).toNat = (memIordByte m (pktAddr+46)).toNat/4 := by
  have byte := iordByte_toNat m (pktAddr+46)
  rw [tcpGetHeaderLength,toNat_setWidth,toNat_ushiftRight]
  omega

theorem tcp_receives_safely_iff (capacity : Nat) : ReceivesSafely m pktAddr capacity ↔ Receivable m pktAddr capacity := by
  have header := headerLength_toNat m pktAddr
  have length : (tcpGetDataLength m pktAddr).toNat =
      (2^16-(memIordByte m (pktAddr+46)).toNat/4+(2^16-20+(ipv4GetLength m pktAddr).toNat) % 2^16) % 2^16 := by
    rw [tcpGetDataLength,toNat_sub,toNat_sub,toNat_setWidth]
    simp only [toNat_ofNat]
    omega
  constructor
  · intro safe
    have exact := safe.length
    have field := safe.reads 46 (by simp [tcpGetDataAccesses,lengthReads])
    unfold dataOffset at exact
    refine ⟨by omega,by unfold dataOffset; omega,by omega,?_⟩
    by_contra full
    have last := safe.writes capacity ((write_accessed m pktAddr).mpr (by unfold dataOffset at full; omega))
    omega
  · rintro ⟨reserved,headers,offset,room⟩
    unfold dataOffset at headers room
    refine ⟨fun i written => ?_,fun j read => ?_,by unfold dataOffset; omega⟩
    · have inside := (write_accessed m pktAddr).mp written
      omega
    · rcases read_accessed m pktAddr read with early | ⟨i,inside,rfl⟩ <;> omega
end Reception

theorem tcp_reception_overflows : ¬∀ m pktAddr capacity, ReceivesSafely m pktAddr capacity := by
  intro safe
  have inside := (safe (fun _ => 0x00295000) 0 0).writes 0 (by decide)
  exact absurd inside (by decide)
end Patmos.Ethlib
