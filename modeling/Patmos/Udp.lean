import Mathlib.Tactic.Abel
import Mathlib.Tactic.FinCases
import Mathlib.Tactic.IntervalCases
import Patmos.EthBuffer
import Patmos.OnesComplement
namespace Patmos.Ethlib
open OnesComplement BitVec

scoped instance neZero_four : NeZero 4 := ⟨by decide⟩
scoped instance neZero_six : NeZero 6 := ⟨by decide⟩

abbrev IpAddress := Fin 4 → BitVec 8
abbrev MacAddress := Fin 6 → BitVec 8

structure Host where
  myMac : MacAddress
  myIp : IpAddress
  ipv4Id : BitVec 16

-- What is sent, with the resolved address of the destination.
structure Datagram where
  destinationMac : MacAddress
  destinationIp : IpAddress
  sourcePort : BitVec 16
  destinationPort : BitVec 16
  data : Nat → BitVec 8
  dataLength : BitVec 16

namespace Datagram
variable (d : Datagram)

def udpLength : BitVec 16 := d.dataLength+8#16
def ipLength : BitVec 16 := d.udpLength+20#16
def frameLength : BitVec 16 := d.ipLength+14#16
end Datagram

section
variable (m : Buffer) (pktAddr : Nat) (h : Host)

-- Pairs of bytes are added up, the first byte of a pair being the upper one.
def pairAt (addr : Nat) : BitVec 32 := (memIordByte m addr <<< 8)+(memIordByte m (addr+1) &&& 0xFF#32)

def pairSum (m : Buffer) (addr : Nat) : Nat → BitVec 32
  | 0 => 0
  | n+1 => pairSum m addr n+pairAt m (addr+2*n)

def ipv4ComputeChecksum : BitVec 16 :=
  (checksum (pairSum m (pktAddr+14) 10-(memIordByte m (pktAddr+24) <<< 8)+(memIordByte m (pktAddr+25) &&& 0xFF#32))).setWidth 16

def ipv4VerifyChecksum : Nat := if checksum (pairSum m (pktAddr+14) 10) = 0 then 1 else 0

def ipv4GetLength : BitVec 16 := ((memIordByte m (pktAddr+16)).setWidth 16 <<< 8)+(memIordByte m (pktAddr+17)).setWidth 16

def ipv4GetSourceIp : IpAddress := fun i => (memIordByte m (pktAddr+26+i)).setWidth 8
def ipv4GetDestinationIp : IpAddress := fun i => (memIordByte m (pktAddr+30+i)).setWidth 8

def udpGetSourcePort : BitVec 16 := (memIord m (pktAddr+32) &&& 0x0000FFFF#32).setWidth 16
def udpGetDestinationPort : BitVec 16 := (memIord m (pktAddr+36) >>> 16).setWidth 16
def udpGetPacketLength : BitVec 16 := (memIord m (pktAddr+36) &&& 0x0000FFFF#32).setWidth 16
def udpGetDataLength : BitVec 16 := udpGetPacketLength m pktAddr-8#16
def udpGetData : Nat → BitVec 8 := fun i => (memIordByte m (pktAddr+42+i)).setWidth 8

-- An odd length is rounded up, and the byte behind the data cleared.
def correctedLength (udpLength : BitVec 16) : BitVec 16 := if udpLength &&& 1#16 = 0 then udpLength else udpLength+1#16

def udpPad : Buffer :=
  let udpLength := udpGetPacketLength m pktAddr
  if udpLength &&& 1#16 = 0 then m else memIowrByte m (pktAddr+udpLength.toNat+34) 0x00

def udpSum (udpLength : BitVec 16) : BitVec 32 := pairSum m (pktAddr+34) (((correctedLength udpLength).toNat+1)/2)

def pseudoHeader (udpLength : BitVec 16) (sum : BitVec 32) : BitVec 32 :=
  sum+pairAt m (pktAddr+26)+pairAt m (pktAddr+30)+pairAt m (pktAddr+28)+pairAt m (pktAddr+32)+0x0011#32+udpLength.setWidth 32

def udpComputeChecksum : Buffer × BitVec 16 :=
  let udpLength := udpGetPacketLength m pktAddr
  let m := udpPad m pktAddr
  let sum := udpSum m pktAddr udpLength-(memIordByte m (pktAddr+40) <<< 8)+(memIordByte m (pktAddr+41) &&& 0xFF#32)
  (m,(checksum (pseudoHeader m pktAddr udpLength sum)).setWidth 16)

def udpVerifyChecksum : Buffer × Nat :=
  let udpLength := udpGetPacketLength m pktAddr
  let m := udpPad m pktAddr
  (m,if checksum (pseudoHeader m pktAddr udpLength (udpSum m pktAddr udpLength)) = 0 then 1 else 0)

def halves (high low : BitVec 16) : BitVec 32 := (high.setWidth 32 <<< 16) ||| low.setWidth 32

def udpHeader (txAddr : Nat) (h : Host) (d : Datagram) : Buffer :=
  let m := memIowr m txAddr (pack (d.destinationMac 0) (d.destinationMac 1) (d.destinationMac 2) (d.destinationMac 3))
  let m := memIowr m (txAddr+4) (pack (d.destinationMac 4) (d.destinationMac 5) (h.myMac 0) (h.myMac 1))
  let m := memIowr m (txAddr+8) (pack (h.myMac 2) (h.myMac 3) (h.myMac 4) (h.myMac 5))
  let m := memIowr m (txAddr+12) 0x08004500
  let m := memIowr m (txAddr+16) (halves d.ipLength h.ipv4Id)
  let m := memIowr m (txAddr+20) 0x40004011
  let m := memIowr m (txAddr+24) (pack 0 0 (h.myIp 0) (h.myIp 1))
  let m := memIowr m (txAddr+28) (pack (h.myIp 2) (h.myIp 3) (d.destinationIp 0) (d.destinationIp 1))
  let m := memIowr m (txAddr+32) (pack (d.destinationIp 2) (d.destinationIp 3) 0 0 ||| d.sourcePort.setWidth 32)
  let m := memIowr m (txAddr+36) (halves d.destinationPort d.udpLength)
  memIowr m (txAddr+40) 0x0000

def writeWords (m : Buffer) (addr : Nat) (word : Nat → BitVec 32) : Nat → Buffer
  | 0 => m
  | n+1 => memIowr (writeWords m addr word n) (addr+4*n) (word n)

def writeData (m : Buffer) (addr : Nat) (data : Nat → BitVec 8) : Nat → Buffer
  | 0 => m
  | n+1 => memIowrByte (writeData m addr data n) (addr+n) ((data n).setWidth 32)

def writeChecksum (addr : Nat) (value : BitVec 16) : Buffer :=
  memIowrByte (memIowrByte m addr ((value >>> 8).setWidth 32)) (addr+1) ((value &&& 0xFF#16).setWidth 32)

-- The second result is the length that the controller is given.
def udpSend (txAddr : Nat) (h : Host) (d : Datagram) : Buffer × BitVec 16 :=
  let m := udpHeader m txAddr h d
  let m := writeData m (txAddr+42) d.data d.dataLength.toNat
  let m := writeChecksum m (txAddr+24) (ipv4ComputeChecksum m txAddr)
  let (m,checksum) := udpComputeChecksum m txAddr
  (writeChecksum m (txAddr+40) checksum,d.frameLength)

-- The receiving side takes the frame for what was sent.
structure Accepted (d : Datagram) : Prop where
  ipv4Checksum : ipv4VerifyChecksum m pktAddr = 1
  udpChecksum : (udpVerifyChecksum m pktAddr).2 = 1
  sourceIp : ipv4GetSourceIp m pktAddr = h.myIp
  destinationIp : ipv4GetDestinationIp m pktAddr = d.destinationIp
  sourcePort : udpGetSourcePort m pktAddr = d.sourcePort
  destinationPort : udpGetDestinationPort m pktAddr = d.destinationPort
  ipLength : (ipv4GetLength m pktAddr).toNat = d.dataLength.toNat+28
  packetLength : (udpGetPacketLength m pktAddr).toNat = d.dataLength.toNat+8
  dataLength : udpGetDataLength m pktAddr = d.dataLength
  data : ∀ i < d.dataLength.toNat, udpGetData m pktAddr i = d.data i
end

section Bytes
variable {m w : Buffer} {addr : Nat}

theorem iordByte_toNat (m : Buffer) (addr : Nat) : (memIordByte m addr).toNat < 2^8 := lane_toNat _ _

theorem masked_toNat (x : BitVec 32) : (x &&& 0xFF#32).toNat = x.toNat % 2^8 := by
  exact Nat.and_two_pow_sub_one_eq_mod _ 8

theorem iordByte_masked (m : Buffer) (addr : Nat) : memIordByte m addr &&& 0xFF#32 = memIordByte m addr :=
  eq_of_toNat_eq ((masked_toNat _).trans (Nat.mod_eq_of_lt (iordByte_toNat m addr)))

theorem pairAt_toNat (m : Buffer) (addr : Nat) :
    (pairAt m addr).toNat = (memIordByte m addr).toNat*2^8+(memIordByte m (addr+1)).toNat := by
  have first := iordByte_toNat m addr
  have second := iordByte_toNat m (addr+1)
  unfold pairAt
  rw [iordByte_masked,toNat_add,toNat_shiftLeft]
  omega

theorem pairAt_lt (m : Buffer) (addr : Nat) : (pairAt m addr).toNat < 2^16 := by
  have first := iordByte_toNat m addr
  have second := iordByte_toNat m (addr+1)
  rw [pairAt_toNat]
  omega

theorem pairAt_congr (first : memIordByte m addr = memIordByte w addr)
    (second : memIordByte m (addr+1) = memIordByte w (addr+1)) : pairAt m addr = pairAt w addr := by
  unfold pairAt
  rw [first,second]

theorem pairSum_le (m : Buffer) (addr n : Nat) (few : n ≤ 2^15) : (pairSum m addr n).toNat ≤ n*(2^16-1) := by
  induction n with
  | zero => exact Nat.zero_le _
  | succ n ih =>
    have pair := pairAt_lt m (addr+2*n)
    rw [pairSum,toNat_add]
    omega

theorem pairSum_congr (same : ∀ a, addr ≤ a → a < addr+2*n → memIordByte m a = memIordByte w a) :
    pairSum m addr n = pairSum w addr n := by
  induction n with
  | zero => rfl
  | succ n ih =>
    rw [pairSum,pairSum,ih fun a low high => same a low (by omega),
      pairAt_congr (same _ (by omega) (by omega)) (same _ (by omega) (by omega))]

theorem pairSum_exchange (addr : Nat) (inside : k < n)
    (same : ∀ a, addr ≤ a → a < addr+2*n → a ≠ addr+2*k → a ≠ addr+2*k+1 → memIordByte m a = memIordByte w a) :
    pairSum w addr n-pairAt w (addr+2*k) = pairSum m addr n-pairAt m (addr+2*k) := by
  induction n with
  | zero => exact absurd inside (Nat.not_lt_zero k)
  | succ n ih =>
    rw [pairSum,pairSum]
    by_cases last : k = n
    · subst last
      have before : pairSum m addr k = pairSum w addr k :=
        pairSum_congr fun a low high => same a low (by omega) (by omega) (by omega)
      rw [before,add_sub_cancel_right,add_sub_cancel_right]
    · have pair : pairAt m (addr+2*n) = pairAt w (addr+2*n) :=
        pairAt_congr (same _ (by omega) (by omega) (by omega) (by omega)) (same _ (by omega) (by omega) (by omega) (by omega))
      rw [add_sub_right_comm,ih (by omega) fun a low high => same a low (by omega),pair,add_sub_right_comm]

section
variable (m : Buffer)

theorem iordByte_writeData (addr : Nat) (data : Nat → BitVec 8) (n other : Nat) :
    memIordByte (writeData m addr data n) other =
      if addr ≤ other ∧ other < addr+n then (data (other-addr)).setWidth 32 else memIordByte m other := by
  induction n with
  | zero =>
    rw [if_neg (by omega)]
    rfl
  | succ n ih =>
    rw [writeData,iordByte_iowrByte,ih]
    by_cases last : other = addr+n
    · subst last
      rw [if_pos rfl]
      apply eq_of_getLsbD_eq
      intro i _
      rw [getLsbD_and,byte_getLsbD]
      by_cases low : i < 8
      · simp [low]
      · simp [getLsbD_of_ge _ i (Nat.not_lt.mp low)]
    · rw [if_neg last]
      exact if_congr (by omega) rfl rfl

theorem iord_writeWords (q : Nat) (word : Nat → BitVec 32) (n : Nat) (inside : j < 4*n) :
    memIord (writeWords m (4*q) word n) (4*q+j) = word (j/4) := by
  induction n with
  | zero => omega
  | succ n ih =>
    rw [writeWords,iord_iowr]
    by_cases last : j/4 = n
    · rw [if_pos (by omega),last]
    · rw [if_neg (by omega),ih (by omega)]

theorem frame_byte (q : Nat) (word : Nat → BitVec 32) (data : Nat → BitVec 8) (k : Nat) (header : j < start)
    (inside : j < 4*n) : memIordByte (writeData (writeWords m (4*q) word n) (4*q+start) data k) (4*q+j) = lane (word (j/4)) j := by
  rw [iordByte_writeData,if_neg (by omega)]
  show lane (memIord (writeWords m (4*q) word n) (4*q+j)) (4*q+j) = _
  rw [iord_writeWords m q word n inside]
  unfold lane
  rw [shiftFactor_eq (show (4*q+j) % 4 = j % 4 by omega)]

theorem frame_data (start : Nat) (data : Nat → BitVec 8) (inside : i < k) :
    memIordByte (writeData m start data k) (start+i) = (data i).setWidth 32 := by
  rw [iordByte_writeData,if_pos (by omega),Nat.add_sub_cancel_left]

theorem iord_writeData (addr : Nat) (data : Nat → BitVec 8) (n other : Nat) (below : other/4 < addr/4) :
    memIord (writeData m addr data n) other = memIord m other := by
  induction n with
  | zero => rfl
  | succ n ih => rw [writeData,iord_iowrByte _ _ (by omega),ih]

theorem iordByte_writeChecksum (addr : Nat) (value : BitVec 16) (other : Nat) (first : other ≠ addr)
    (second : other ≠ addr+1) : memIordByte (writeChecksum m addr value) other = memIordByte m other := by
  rw [writeChecksum,iordByte_iowrByte,if_neg second,iordByte_iowrByte,if_neg first]

theorem iord_writeChecksum (value : BitVec 16) (first : other/4 ≠ addr/4) (second : other/4 ≠ (addr+1)/4) :
    memIord (writeChecksum m addr value) other = memIord m other := by
  rw [writeChecksum,iord_iowrByte _ _ second,iord_iowrByte _ _ first]

theorem iordByte_writeChecksum_low (addr : Nat) (value : BitVec 16) :
    (memIordByte (writeChecksum m addr value) (addr+1)).toNat = value.toNat%2^8 := by
  have low : (value &&& 0xFF#16).toNat = value.toNat%2^8 := Nat.and_two_pow_sub_one_eq_mod _ 8
  rw [writeChecksum,iordByte_iowrByte,if_pos rfl,masked_toNat,toNat_setWidth]
  omega

theorem pairAt_writeChecksum (addr : Nat) (value : BitVec 16) :
    pairAt (writeChecksum m addr value) addr = value.setWidth 32 := by
  have first : memIordByte (writeChecksum m addr value) addr = (value >>> 8).setWidth 32 &&& 0xFF#32 := by
    rw [writeChecksum,iordByte_iowrByte,if_neg (by omega),iordByte_iowrByte,if_pos rfl]
  apply eq_of_toNat_eq
  rw [pairAt_toNat,first,iordByte_writeChecksum_low,masked_toNat,toNat_setWidth,toNat_setWidth,toNat_ushiftRight]
  omega

theorem pairSum_rest_le (addr : Nat) (inside : k < n) (few : n ≤ 2^15) :
    (pairSum m addr n-pairAt m (addr+2*k)).toNat ≤ n*(2^16-1) := by
  have cleared := pairSum_exchange (m := m) (w := writeChecksum m (addr+2*k) 0) addr inside fun a _ _ other another =>
    (iordByte_writeChecksum m (addr+2*k) 0 a other another).symm
  rw [pairAt_writeChecksum,show (0 : BitVec 16).setWidth 32 = 0 from rfl,sub_zero] at cleared
  rw [← cleared]
  exact pairSum_le _ _ _ few
end
end Bytes

section Checksums
variable {m : Buffer} {pktAddr : Nat}

def twice (m : Buffer) (a : Nat) : BitVec 32 := memIordByte m a+memIordByte m a

theorem twice_toNat (m : Buffer) (a : Nat) : (twice m a).toNat = 2*(memIordByte m a).toNat := by
  have small := iordByte_toNat m a
  rw [twice,toNat_add]
  omega

theorem twice_small (m : Buffer) (a : Nat) : (twice m a).toNat < 65535 := by
  have small := iordByte_toNat m a
  rw [twice_toNat]
  omega

theorem twice_zero : twice m a = 0 ↔ memIordByte m a = 0 := by
  rw [← toNat_inj,← toNat_inj,twice_toNat]
  show _ = 0 ↔ _ = 0
  omega

-- The lower byte of the checksum is added where it should be subtracted.
theorem adjusted (sum : BitVec 32) :
    sum-(memIordByte m a <<< 8)+(memIordByte m (a+1) &&& 0xFF#32) = sum-pairAt m a+twice m (a+1) := by
  rw [pairAt,twice,iordByte_masked]
  abel

theorem checksum_whole (sum : BitVec 32) : ((checksum sum).setWidth 16).setWidth 32 = checksum sum := by
  have small := checksum_small sum
  apply eq_of_toNat_eq
  rw [toNat_setWidth,toNat_setWidth]
  omega

theorem checksum_whole_inj : (checksum a).setWidth 16 = (checksum b).setWidth 16 ↔ checksum a = checksum b := by
  refine ⟨fun same => ?_,congrArg _⟩
  rw [← checksum_whole a,same,checksum_whole]

def ipv4Rest (m : Buffer) (pktAddr : Nat) : BitVec 32 := pairSum m (pktAddr+14) 10-pairAt m (pktAddr+24)

theorem ipv4_checksum_rest (m : Buffer) (pktAddr : Nat) :
    ipv4ComputeChecksum m pktAddr = (checksum (ipv4Rest m pktAddr+twice m (pktAddr+25))).setWidth 16 :=
  congrArg (fun sum => (checksum sum).setWidth 16) (adjusted _)

theorem ipv4Rest_le (m : Buffer) (pktAddr : Nat) : (ipv4Rest m pktAddr).toNat+2^16 ≤ 2^32 := by
  have bound := pairSum_rest_le m (pktAddr+14) (show 5 < 10 by decide) (by decide)
  exact le_trans (Nat.add_le_add_right bound _) (by decide)

theorem ipv4_exchange (m : Buffer) (pktAddr : Nat) (value : BitVec 16) :
    ipv4Rest (writeChecksum m (pktAddr+24) value) pktAddr = ipv4Rest m pktAddr := by
  have same := pairSum_exchange (m := m) (w := writeChecksum m (pktAddr+24) value) (pktAddr+14) (show 5 < 10 by decide)
    fun a _ _ other another => (iordByte_writeChecksum m (pktAddr+24) _ a other another).symm
  rwa [show pktAddr+14+2*5 = pktAddr+24 from rfl] at same

theorem ipv4_checksum_verified :
    ipv4VerifyChecksum (writeChecksum m (pktAddr+24) (ipv4ComputeChecksum m pktAddr)) pktAddr = 1 ↔
      memIordByte m (pktAddr+25) = 0 := by
  have rest := ipv4_exchange m pktAddr (ipv4ComputeChecksum m pktAddr)
  rw [ipv4Rest,pairAt_writeChecksum,sub_eq_iff_eq_add,ipv4_checksum_rest,checksum_whole] at rest
  rw [ipv4VerifyChecksum,ipv4_checksum_rest,rest,← twice_zero,
    ← checksum_verified (ipv4Rest_le m pktAddr) (twice_small m (pktAddr+25))]
  exact ite_eq_left_iff.trans (by simp)

theorem low_stored (m : Buffer) (addr : Nat) (value : BitVec 16) :
    memIordByte (writeChecksum m addr value) (addr+1) = 0 ↔ value &&& 0xFF#16 = 0 := by
  have low : (value &&& 0xFF#16).toNat = value.toNat % 2^8 := Nat.and_two_pow_sub_one_eq_mod _ 8
  rw [← toNat_inj,← toNat_inj,iordByte_writeChecksum_low,low]
  rfl

theorem ipv4_stored (low : memIordByte m (pktAddr+25) = 0) :
    ipv4ComputeChecksum (writeChecksum m (pktAddr+24) value) pktAddr = ipv4ComputeChecksum m pktAddr ↔
      value &&& 0xFF#16 = 0 := by
  rw [ipv4_checksum_rest,ipv4_checksum_rest,twice_zero.mpr low,add_zero,checksum_whole_inj,ipv4_exchange,
    checksum_more (ipv4Rest_le m pktAddr) (twice_small _ _),twice_zero]
  exact low_stored m (pktAddr+24) value

theorem iordByte_udpPad (m : Buffer) (apart : other ≠ pktAddr+(udpGetPacketLength m pktAddr).toNat+34) :
    memIordByte (udpPad m pktAddr) other = memIordByte m other := by
  unfold udpPad
  dsimp only
  split
  · rfl
  · rw [iordByte_iowrByte,if_neg apart]

theorem iord_udpPad (m : Buffer) (apart : other/4 ≠ (pktAddr+(udpGetPacketLength m pktAddr).toNat+34)/4) :
    memIord (udpPad m pktAddr) other = memIord m other := by
  unfold udpPad
  dsimp only
  split
  · rfl
  · rw [iord_iowrByte _ _ apart]

theorem iordByte_udpPad_agrees (length : udpGetPacketLength u pktAddr = udpGetPacketLength m pktAddr)
    (agrees : memIordByte u a = memIordByte m a ∨ memIordByte u a = memIordByte (udpPad m pktAddr) a) :
    memIordByte (udpPad u pktAddr) a = memIordByte (udpPad m pktAddr) a := by
  by_cases even : udpGetPacketLength m pktAddr &&& 1#16 = 0
  · simp only [udpPad,length,even] at agrees ⊢
    exact agrees.elim id id
  · simp only [udpPad,length,even,if_false,iordByte_iowrByte] at agrees ⊢
    split
    · rfl
    next other =>
      rw [if_neg other] at agrees
      exact agrees.elim id id

theorem pseudoHeader_add (m : Buffer) (pktAddr : Nat) (udpLength : BitVec 16) (sum more : BitVec 32) :
    pseudoHeader m pktAddr udpLength (sum+more) = pseudoHeader m pktAddr udpLength sum+more := by
  unfold pseudoHeader
  abel

theorem pseudoHeader_congr (udpLength : BitVec 16) (sum : BitVec 32)
    (same : ∀ a, pktAddr+26 ≤ a → a < pktAddr+34 → memIordByte m a = memIordByte w a) :
    pseudoHeader m pktAddr udpLength sum = pseudoHeader w pktAddr udpLength sum := by
  have pair (k : Nat) (low : 26 ≤ k) (high : k < 33) : pairAt m (pktAddr+k) = pairAt w (pktAddr+k) :=
    pairAt_congr (same _ (by omega) (by omega)) (same _ (by omega) (by omega))
  unfold pseudoHeader
  rw [pair 26 (by decide) (by decide),pair 30 (by decide) (by decide),pair 28 (by decide) (by decide),
    pair 32 (by decide) (by decide)]

theorem pseudoHeader_le (m : Buffer) (pktAddr : Nat) (udpLength : BitVec 16) (sum : BitVec 32) (room : sum.toNat ≤ 2^31) :
    (pseudoHeader m pktAddr udpLength sum).toNat ≤ sum.toNat+6*2^16 := by
  have one := pairAt_lt m (pktAddr+26)
  have two := pairAt_lt m (pktAddr+30)
  have three := pairAt_lt m (pktAddr+28)
  have four := pairAt_lt m (pktAddr+32)
  unfold pseudoHeader
  simp only [toNat_add,toNat_setWidth,toNat_ofNat]
  omega

theorem correctedLength_toNat (udpLength : BitVec 16) (room : udpLength.toNat < 2^16-1) :
    udpLength.toNat ≤ (correctedLength udpLength).toNat ∧ (correctedLength udpLength).toNat ≤ udpLength.toNat+1 := by
  unfold correctedLength
  split
  · omega
  · rw [toNat_add,toNat_ofNat]
    omega

def udpRest (m : Buffer) (pktAddr : Nat) : BitVec 32 :=
  pseudoHeader (udpPad m pktAddr) pktAddr (udpGetPacketLength m pktAddr)
    (udpSum (udpPad m pktAddr) pktAddr (udpGetPacketLength m pktAddr)-pairAt (udpPad m pktAddr) (pktAddr+40))

section Udp
variable (long : 8 ≤ (udpGetPacketLength m pktAddr).toNat) (room : (udpGetPacketLength m pktAddr).toNat < 2^16-1)
include long

theorem udp_checksum_rest :
    (udpComputeChecksum m pktAddr).2 = (checksum (udpRest m pktAddr+twice m (pktAddr+41))).setWidth 16 := by
  have same : twice (udpPad m pktAddr) (pktAddr+41) = twice m (pktAddr+41) := by
    rw [twice,iordByte_udpPad m (by omega),twice]
  rw [udpRest,← pseudoHeader_add,← same]
  exact congrArg (fun sum => (checksum (pseudoHeader _ _ _ sum)).setWidth 16) (adjusted _)

theorem udp_verify_rest : (udpVerifyChecksum m pktAddr).2 =
    if checksum (udpRest m pktAddr+pairAt m (pktAddr+40)) = 0 then 1 else 0 := by
  have field : pairAt (udpPad m pktAddr) (pktAddr+40) = pairAt m (pktAddr+40) :=
    pairAt_congr (iordByte_udpPad m (by omega)) (iordByte_udpPad m (by omega))
  rw [udpRest,← pseudoHeader_add,field,sub_add_cancel]
  rfl

include room

theorem udpRest_le : (udpRest m pktAddr).toNat+2^16 ≤ 2^32 := by
  have count := correctedLength_toNat _ room
  have bound := pairSum_rest_le (udpPad m pktAddr) (pktAddr+34)
    (show 3 < ((correctedLength (udpGetPacketLength m pktAddr)).toNat+1)/2 by omega) (by omega)
  have small := pseudoHeader_le (udpPad m pktAddr) pktAddr (udpGetPacketLength m pktAddr) _ (bound.trans (by omega))
  exact le_trans (Nat.add_le_add_right small _) (by omega)

theorem udpRest_exchange (length : udpGetPacketLength u pktAddr = udpGetPacketLength m pktAddr)
    (agrees : ∀ a, a ≠ pktAddr+40 → a ≠ pktAddr+41 →
      memIordByte u a = memIordByte m a ∨ memIordByte u a = memIordByte (udpPad m pktAddr) a) :
    udpRest u pktAddr = udpRest m pktAddr := by
  have count := correctedLength_toNat _ room
  have same (a : Nat) (one : a ≠ pktAddr+40) (two : a ≠ pktAddr+41) :
      memIordByte (udpPad m pktAddr) a = memIordByte (udpPad u pktAddr) a := (iordByte_udpPad_agrees length (agrees a one two)).symm
  have rest := pairSum_exchange (pktAddr+34)
    (show 3 < ((correctedLength (udpGetPacketLength m pktAddr)).toNat+1)/2 by omega) fun a _ _ => same a
  rw [udpRest,udpRest,length,pseudoHeader_congr _ _ fun a _ _ => same a (by omega) (by omega)]
  exact congrArg _ rest

theorem udp_checksum_verified :
    (udpVerifyChecksum (writeChecksum (udpComputeChecksum m pktAddr).1 (pktAddr+40) (udpComputeChecksum m pktAddr).2)
      pktAddr).2 = 1 ↔ memIordByte m (pktAddr+41) = 0 := by
  have padded : (udpComputeChecksum m pktAddr).1 = udpPad m pktAddr := rfl
  have length : udpGetPacketLength (writeChecksum (udpPad m pktAddr) (pktAddr+40) (udpComputeChecksum m pktAddr).2) pktAddr =
      udpGetPacketLength m pktAddr := by
    unfold udpGetPacketLength
    rw [iord_writeChecksum _ _ (by omega) (by omega),iord_udpPad m (by omega)]
  rw [padded,udp_verify_rest (by rwa [length]),pairAt_writeChecksum,udpRest_exchange long room length fun a one two =>
    .inr (iordByte_writeChecksum _ _ _ a one two),udp_checksum_rest long,checksum_whole,← twice_zero,
    ← checksum_verified (udpRest_le long room) (twice_small m (pktAddr+41))]
  exact ite_eq_left_iff.trans (by simp)

theorem udp_stored (low : memIordByte m (pktAddr+41) = 0) :
    (udpComputeChecksum (writeChecksum m (pktAddr+40) value) pktAddr).2 = (udpComputeChecksum m pktAddr).2 ↔
      value &&& 0xFF#16 = 0 := by
  have length : udpGetPacketLength (writeChecksum m (pktAddr+40) value) pktAddr = udpGetPacketLength m pktAddr := by
    unfold udpGetPacketLength
    rw [iord_writeChecksum _ _ (by omega) (by omega)]
  rw [udp_checksum_rest (by rwa [length]),udp_checksum_rest long,twice_zero.mpr low,add_zero,checksum_whole_inj,
    udpRest_exchange long room length fun a one two => .inl (iordByte_writeChecksum _ _ _ a one two),
    checksum_more (udpRest_le long room) (twice_small _ _),twice_zero]
  exact low_stored m (pktAddr+40) value
end Udp

-- What is stored as checksums does not matter, and what is computed is accepted.
structure IgnoresStored (m : Buffer) (pktAddr : Nat) (value : BitVec 16) : Prop where
  ipv4 : ipv4ComputeChecksum (writeChecksum m (pktAddr+24) value) pktAddr = ipv4ComputeChecksum m pktAddr
  ipv4Accepted : ipv4VerifyChecksum (writeChecksum m (pktAddr+24) (ipv4ComputeChecksum m pktAddr)) pktAddr = 1
  udp : (udpComputeChecksum (writeChecksum m (pktAddr+40) value) pktAddr).2 = (udpComputeChecksum m pktAddr).2
  udpAccepted : (udpVerifyChecksum (writeChecksum (udpComputeChecksum m pktAddr).1 (pktAddr+40) (udpComputeChecksum m pktAddr).2)
    pktAddr).2 = 1

structure LowZero (m : Buffer) (pktAddr : Nat) (value : BitVec 16) : Prop where
  ipv4 : memIordByte m (pktAddr+25) = 0
  udp : memIordByte m (pktAddr+41) = 0
  value : value &&& 0xFF#16 = 0

theorem stored_checksum_ignored (m : Buffer) (pktAddr : Nat) (value : BitVec 16)
    (long : 8 ≤ (udpGetPacketLength m pktAddr).toNat) (short : (udpGetPacketLength m pktAddr).toNat ≤ 65515) :
    IgnoresStored m pktAddr value ↔ LowZero m pktAddr value := by
  have room : (udpGetPacketLength m pktAddr).toNat < 2^16-1 := by omega
  constructor
  · intro ignores
    have ipv4 := ipv4_checksum_verified.mp ignores.ipv4Accepted
    exact ⟨ipv4,(udp_checksum_verified long room).mp ignores.udpAccepted,(ipv4_stored ipv4).mp ignores.ipv4⟩
  · intro low
    exact ⟨(ipv4_stored low.ipv4).mpr low.value,ipv4_checksum_verified.mpr low.ipv4,
      (udp_stored long room low.udp).mpr low.value,(udp_checksum_verified long room).mpr low.udp⟩

theorem stored_checksum_ignored_upper : IgnoresStored (fun _ => 0xAB000008) 0 0xCD00 :=
  (stored_checksum_ignored (fun _ => 0xAB000008) 0 0xCD00 (by decide) (by decide)).mpr ⟨by decide,by decide,by decide⟩

theorem stored_checksum_counts : ¬∀ m pktAddr value, 8 ≤ (udpGetPacketLength m pktAddr).toNat →
    (udpGetPacketLength m pktAddr).toNat ≤ 65515 → IgnoresStored m pktAddr value := by
  intro ignores
  have stored := (ignores (fun _ => 8) 0 1 (by decide) (by decide)).ipv4
  exact absurd stored (by decide)
end Checksums

section
variable (high low : BitVec 16)

theorem halves_getLsbD (i : Nat) : (halves high low).getLsbD i = if i < 16 then low.getLsbD i else high.getLsbD (i-16) := by
  simp only [halves]
  by_cases first : i < 16
  · simp [first,show i < 32 by omega]
  · by_cases inside : i < 32
    · simp [inside,getLsbD_of_ge low i (Nat.not_lt.mp first)]
    · simp [first,inside,getLsbD_of_ge high (i-16) (by omega)]

theorem low_half (word : BitVec 32) : (word &&& 0x0000FFFF#32).setWidth 16 = word.setWidth 16 := by
  apply eq_of_toNat_eq
  rw [toNat_setWidth,toNat_setWidth,low_toNat,Nat.mod_mod]

theorem halves_low : (halves high low).setWidth 16 = low := by
  apply eq_of_getLsbD_eq
  intro i inside
  simp [halves_getLsbD,inside]

theorem halves_high : (halves high low >>> 16).setWidth 16 = high := by
  apply eq_of_getLsbD_eq
  intro i inside
  simp [halves_getLsbD,inside]

theorem halves_toNat : (halves high low).toNat = high.toNat*2^16+low.toNat := by
  have upper : ((halves high low >>> 16).setWidth 16).toNat = high.toNat := by rw [halves_high]
  have lower : ((halves high low).setWidth 16).toNat = low.toNat := by rw [halves_low]
  rw [toNat_setWidth,toNat_ushiftRight] at upper
  rw [toNat_setWidth] at lower
  omega

theorem halves_bytes : ((lane (halves high low) 16).setWidth 16 <<< 8)+(lane (halves high low) 17).setWidth 16 = high := by
  have value := halves_toNat high low
  have upper : (lane (halves high low) 16).toNat = high.toNat/2^8 := by
    rw [lane_value,show shiftFactor 16 = 24 from rfl]
    omega
  have lower : (lane (halves high low) 17).toNat = high.toNat % 2^8 := by
    rw [lane_value,show shiftFactor 17 = 16 from rfl]
    omega
  apply eq_of_toNat_eq
  rw [toNat_add,toNat_shiftLeft,toNat_setWidth,toNat_setWidth]
  omega
end

theorem lane_or_port (word : BitVec 32) (port : BitVec 16) (first : j % 4 < 2) :
    lane (word ||| port.setWidth 32) j = lane word j := by
  apply eq_of_getLsbD_eq
  intro i _
  have high : 16 ≤ shiftFactor j := by unfold shiftFactor; omega
  have none : port.getLsbD (shiftFactor j+i) = false := getLsbD_of_ge _ _ (by omega)
  simp only [lane_getLsbD,getLsbD_or,getLsbD_setWidth,none,Bool.and_false,Bool.or_false]

theorem port_low (a b : BitVec 8) (port : BitVec 16) : (pack a b 0 0 ||| port.setWidth 32).setWidth 16 = port := by
  apply eq_of_getLsbD_eq
  intro i inside
  rw [getLsbD_setWidth,getLsbD_or,pack_getLsbD]
  by_cases low : i < 8
  · simp [inside,show i < 32 by omega]
  · simp [inside,show i < 32 by omega]

theorem lane_pack_zero (c d : BitVec 8) (first : j % 4 < 2) : lane (pack 0 0 c d) j = 0 := by
  rw [← lane_narrow,lane_pack]
  have cases : j % 4 = 0 ∨ j % 4 = 1 := by omega
  rcases cases with zero | one
  · rw [if_pos zero]
    decide
  · rw [if_neg (by omega),if_pos one]
    decide

section Sent
variable (m : Buffer) (q : Nat) (h : Host) (d : Datagram)

def headerWord : Nat → BitVec 32
  | 0 => pack (d.destinationMac 0) (d.destinationMac 1) (d.destinationMac 2) (d.destinationMac 3)
  | 1 => pack (d.destinationMac 4) (d.destinationMac 5) (h.myMac 0) (h.myMac 1)
  | 2 => pack (h.myMac 2) (h.myMac 3) (h.myMac 4) (h.myMac 5)
  | 3 => 0x08004500
  | 4 => halves d.ipLength h.ipv4Id
  | 5 => 0x40004011
  | 6 => pack 0 0 (h.myIp 0) (h.myIp 1)
  | 7 => pack (h.myIp 2) (h.myIp 3) (d.destinationIp 0) (d.destinationIp 1)
  | 8 => pack (d.destinationIp 2) (d.destinationIp 3) 0 0 ||| d.sourcePort.setWidth 32
  | 9 => halves d.destinationPort d.udpLength
  | _ => 0

theorem udpHeader_eq : udpHeader m (4*q) h d = writeWords m (4*q) (headerWord h d) 11 := rfl

def filled : Buffer := writeData (udpHeader m (4*q) h d) (4*q+42) d.data d.dataLength.toNat

theorem filled_iord (inside : j < 40) : memIord (filled m q h d) (4*q+j) = headerWord h d (j/4) := by
  unfold filled
  rw [iord_writeData _ _ _ _ _ (by omega),udpHeader_eq,iord_writeWords m q _ 11 (by omega)]

theorem filled_byte (inside : j < 42) : memIordByte (filled m q h d) (4*q+j) = lane (headerWord h d (j/4)) j := by
  unfold filled
  rw [udpHeader_eq,frame_byte m q _ _ _ inside (by omega)]

def labelled : Buffer := writeChecksum (filled m q h d) (4*q+24) (ipv4ComputeChecksum (filled m q h d) (4*q))

theorem labelled_length : udpGetPacketLength (labelled m q h d) (4*q) = d.udpLength := by
  unfold udpGetPacketLength labelled
  rw [iord_writeChecksum _ _ (by omega) (by omega),filled_iord m q h d (by decide),low_half]
  exact halves_low _ _

theorem udpSend_eq : (udpSend m (4*q) h d).1 =
    writeChecksum (udpComputeChecksum (labelled m q h d) (4*q)).1 (4*q+40) (udpComputeChecksum (labelled m q h d) (4*q)).2 := rfl

theorem udpSend_byte (first : a ≠ 4*q+40) (second : a ≠ 4*q+41) (last : a ≠ 4*q+d.udpLength.toNat+34) :
    memIordByte (udpSend m (4*q) h d).1 a = memIordByte (labelled m q h d) a := by
  rw [udpSend_eq,iordByte_writeChecksum _ _ _ _ first second]
  exact iordByte_udpPad _ (by rw [labelled_length]; exact last)

theorem udpSend_word (long : 8 ≤ d.udpLength.toNat) (below : a/4 < q+10) :
    memIord (udpSend m (4*q) h d).1 a = memIord (labelled m q h d) a := by
  rw [udpSend_eq,iord_writeChecksum _ _ (by omega) (by omega)]
  exact iord_udpPad _ (by rw [labelled_length]; omega)

theorem udpSend_ipv4Checksum : ipv4VerifyChecksum (udpSend m (4*q) h d).1 (4*q) = 1 := by
  have same : pairSum (udpSend m (4*q) h d).1 (4*q+14) 10 = pairSum (labelled m q h d) (4*q+14) 10 :=
    pairSum_congr fun a low high => udpSend_byte m q h d (by omega) (by omega) (by omega)
  have low : memIordByte (filled m q h d) (4*q+25) = 0 := (filled_byte m q h d (by decide)).trans (lane_pack_zero _ _ (by decide))
  unfold ipv4VerifyChecksum
  rw [same]
  exact ipv4_checksum_verified.mpr low

section Range
variable {d} (few : d.dataLength.toNat ≤ 65507)
include few

theorem udpLength_toNat : d.udpLength.toNat = d.dataLength.toNat+8 := by
  unfold Datagram.udpLength
  rw [toNat_add,toNat_ofNat]
  omega

theorem ipLength_toNat : d.ipLength.toNat = d.dataLength.toNat+28 := by
  unfold Datagram.ipLength
  rw [toNat_add,udpLength_toNat few,toNat_ofNat]
  omega

theorem udpSend_header (inside : j < 40) (first : j ≠ 24) (second : j ≠ 25) :
    memIordByte (udpSend m (4*q) h d).1 (4*q+j) = lane (headerWord h d (j/4)) j := by
  have length := udpLength_toNat few
  rw [udpSend_byte m q h d (by omega) (by omega) (by omega),labelled,
    iordByte_writeChecksum _ _ _ _ (by omega) (by omega),filled_byte m q h d (by omega)]

theorem udpSend_header_word (inside : j < 40) (other : j/4 ≠ 6) :
    memIord (udpSend m (4*q) h d).1 (4*q+j) = headerWord h d (j/4) := by
  have length := udpLength_toNat few
  rw [udpSend_word m q h d (by omega) (by omega),labelled,iord_writeChecksum _ _ (by omega) (by omega),
    filled_iord m q h d inside]

theorem udpSend_data (inside : i < d.dataLength.toNat) :
    memIordByte (udpSend m (4*q) h d).1 (4*q+42+i) = (d.data i).setWidth 32 := by
  have length := udpLength_toNat few
  rw [udpSend_byte m q h d (by omega) (by omega) (by omega),labelled,
    iordByte_writeChecksum _ _ _ _ (by omega) (by omega),filled,frame_data _ _ _ inside]

theorem udpSend_udpChecksum : (udpVerifyChecksum (udpSend m (4*q) h d).1 (4*q)).2 = 1 := by
  have length := udpLength_toNat few
  have low : memIordByte (labelled m q h d) (4*q+41) = 0 := by
    unfold labelled
    rw [iordByte_writeChecksum _ _ _ _ (by omega) (by omega),filled_byte m q h d (by decide)]
    show lane 0#32 41 = 0#32
    decide
  rw [udpSend_eq]
  refine (udp_checksum_verified ?_ ?_).mpr low
  · rw [labelled_length]
    omega
  · rw [labelled_length]
    omega

theorem udpSend_sourceIp : ipv4GetSourceIp (udpSend m (4*q) h d).1 (4*q) = h.myIp := by
  funext i
  unfold ipv4GetSourceIp
  rw [Nat.add_assoc,udpSend_header m q h few (by omega) (by omega) (by omega)]
  fin_cases i
  all_goals exact lane_pack _ _ _ _ _

theorem udpSend_destinationIp : ipv4GetDestinationIp (udpSend m (4*q) h d).1 (4*q) = d.destinationIp := by
  funext i
  unfold ipv4GetDestinationIp
  rw [Nat.add_assoc,udpSend_header m q h few (by omega) (by omega) (by omega)]
  fin_cases i
  · exact lane_pack _ _ _ _ _
  · exact lane_pack _ _ _ _ _
  · exact (congrArg _ (lane_or_port _ _ (by decide))).trans (lane_pack _ _ _ _ _)
  · exact (congrArg _ (lane_or_port _ _ (by decide))).trans (lane_pack _ _ _ _ _)

theorem udpSend_ipLength : (ipv4GetLength (udpSend m (4*q) h d).1 (4*q)).toNat = d.dataLength.toNat+28 := by
  unfold ipv4GetLength
  rw [udpSend_header m q h few (by decide) (by decide) (by decide),udpSend_header m q h few (by decide) (by decide) (by decide),
    ← ipLength_toNat few]
  exact congrArg _ (halves_bytes d.ipLength h.ipv4Id)

theorem udpSend_packetLength : udpGetPacketLength (udpSend m (4*q) h d).1 (4*q) = d.udpLength := by
  unfold udpGetPacketLength
  rw [udpSend_header_word m q h few (by decide) (by decide),low_half]
  exact halves_low _ _
end Range
end Sent

theorem udp_send_accepted (m : Buffer) (txAddr : Nat) (aligned : txAddr % 4 = 0) (h : Host) (d : Datagram)
    (few : d.dataLength.toNat ≤ 65507) : Accepted (udpSend m txAddr h d).1 txAddr h d := by
  obtain ⟨q,rfl⟩ : ∃ q, txAddr = 4*q := ⟨txAddr/4,by omega⟩
  constructor
  · exact udpSend_ipv4Checksum m q h d
  · exact udpSend_udpChecksum m q h few
  · exact udpSend_sourceIp m q h few
  · exact udpSend_destinationIp m q h few
  · unfold udpGetSourcePort
    rw [udpSend_header_word m q h few (by decide) (by decide),low_half]
    exact port_low _ _ _
  · unfold udpGetDestinationPort
    rw [udpSend_header_word m q h few (by decide) (by decide)]
    exact halves_high _ _
  · exact udpSend_ipLength m q h few
  · rw [udpSend_packetLength m q h few,udpLength_toNat few]
  · unfold udpGetDataLength
    rw [udpSend_packetLength m q h few]
    exact add_sub_cancel_right _ _
  · intro i inside
    unfold udpGetData
    rw [udpSend_data m q h few inside]
    exact setWidth_setWidth_of_le _ (by decide)

theorem udp_send_accepted_odd :
    Accepted (udpSend (fun _ => 0xA5A5A5A5) 0x800 ⟨fun _ => 2,fun _ => 192,0x1111⟩
        ⟨fun _ => 0xFF,fun _ => 10,319,320,fun i => .ofNat 8 (i+7),3⟩).1
      0x800 ⟨fun _ => 2,fun _ => 192,0x1111⟩ ⟨fun _ => 0xFF,fun _ => 10,319,320,fun i => .ofNat 8 (i+7),3⟩ :=
  udp_send_accepted _ _ (by decide) _ _ (by decide)

end Patmos.Ethlib
