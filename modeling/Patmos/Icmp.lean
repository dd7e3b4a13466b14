import Patmos.Tcp
import Patmos.Arp
namespace Patmos.Ethlib
open OnesComplement BitVec

section
variable (m : Buffer) (h : Host) (rxAddr : Nat) (w : Buffer) (txAddr : Nat)

def hexOr (addr : Nat) : BitVec 32 := (memIordByte m addr <<< 8) ||| memIordByte m (addr+1)

-- The second result is the length that the controller is given.
def icmpBuildPingReply (rxAddr txAddr : Nat) : Buffer × BitVec 32 :=
  let frameLength := 14#32+hexOr m (rxAddr+16)
  let m := if rxAddr ≠ txAddr then copyFrame m rxAddr txAddr frameLength.toNat else m
  let m := swapAddress m txAddr (txAddr+6) h.myMac 6
  let m := swapAddress m (txAddr+30) (txAddr+26) h.myIp 4
  let m := memIowrByte m (txAddr+34) 0x00#32
  let checksum := (hexOr m (txAddr+36)).setWidth 16
  (writeChecksum m (txAddr+36) (~~~(~~~checksum-0x0800#16)),frameLength)

-- The result, the memory and the length of the frame that is sent.
def icmpProcessReceived (rxAddr txAddr : Nat) : Nat × Buffer × Option (BitVec 32) :=
  if byteAt m (rxAddr+34) = 0x08#8 ∧ ipv4GetDestinationIp m rxAddr = h.myIp then
    (1,(icmpBuildPingReply m h rxAddr txAddr).1,some (icmpBuildPingReply m h rxAddr txAddr).2)
  else (0,m,none)

abbrev icmpValid (pktAddr : Nat) : Prop := total (segmentWords m pktAddr ((ipv4GetLength m pktAddr).toNat-20)) = 0xFFFF

structure PingRequest : Prop where
  version : byteAt m (rxAddr+14) = 0x45#8
  long : 28 ≤ (ipv4GetLength m rxAddr).toNat
  type : byteAt m (rxAddr+34) = 0x08#8
  code : byteAt m (rxAddr+35) = 0x00#8
  destination : ipv4GetDestinationIp m rxAddr = h.myIp
  ipv4Checksum : ipv4VerifyChecksum m rxAddr = 1
  icmpChecksum : icmpValid m rxAddr

-- What a frame in w keeps of the request, with the identifier, the sequence number and the payload behind the checksum.
structure Exchanged : Prop where
  rest : ∀ j, 12 ≤ j → j < 14+(ipv4GetLength m rxAddr).toNat → j < 26 ∨ j = 35 ∨ 38 ≤ j →
    byteAt w (txAddr+j) = byteAt m (rxAddr+j)
  type : byteAt w (txAddr+34) = 0x00#8
  sourceMac : ∀ i : Fin 6, byteAt w (txAddr+6+i) = h.myMac i
  destinationMac : ∀ i : Fin 6, byteAt w (txAddr+i) = byteAt m (rxAddr+6+i)
  sourceIp : ∀ i : Fin 4, byteAt w (txAddr+26+i) = h.myIp i
  destinationIp : ∀ i : Fin 4, byteAt w (txAddr+30+i) = byteAt m (rxAddr+26+i)

structure PingReply : Prop extends Exchanged m h rxAddr w txAddr where
  ipv4Checksum : ipv4VerifyChecksum w txAddr = 1
  icmpChecksum : icmpValid w txAddr

theorem hexOr_eq (addr : Nat) : hexOr m addr = pairAt m addr := by
  have first := iordByte_toNat m addr
  have second := iordByte_toNat m (addr+1)
  have upper : (memIordByte m addr <<< 8).toNat = (memIordByte m addr).toNat <<< 8 := by
    rw [toNat_shiftLeft]
    omega
  apply eq_of_toNat_eq
  rw [hexOr,toNat_or,upper,← Nat.shiftLeft_add_eq_or_of_lt second,pairAt_toNat,Nat.shiftLeft_eq]

theorem ipv4GetLength_toNat (pktAddr : Nat) : (ipv4GetLength m pktAddr).toNat = (pairAt m (pktAddr+16)).toNat := by
  have first := iordByte_toNat m (pktAddr+16)
  have second := iordByte_toNat m (pktAddr+17)
  rw [pairAt_toNat,ipv4GetLength,toNat_add,toNat_shiftLeft,toNat_setWidth,toNat_setWidth,
    show pktAddr+16+1 = pktAddr+17 from rfl]
  omega
end

theorem pairAt_bytes (first : byteAt w a = byteAt m b) (second : byteAt w (a+1) = byteAt m (b+1)) : pairAt w a = pairAt m b := by
  rw [pairAt,pairAt,iordByte_byteAt,iordByte_byteAt,iordByte_byteAt m,iordByte_byteAt m,first,second]

theorem byteAt_writeChecksum (first : a ≠ addr) (second : a ≠ addr+1) : byteAt (writeChecksum m addr value) a = byteAt m a := by
  unfold byteAt
  rw [iordByte_writeChecksum m addr value a first second]

-- The checksum is raised by what the type is lowered. The carry is dropped.
theorem checksum_raised (c : BitVec 16) : (~~~(~~~c-0x0800#16)).toNat = (c.toNat+0x0800)%2^16 := by
  rw [toNat_not,toNat_sub,toNat_not,toNat_ofNat]
  omega

theorem sum_exchange (f g : Nat → Nat) (n : Nat) (first : f 0+f 1+a = g 0+g 1+b) (rest : ∀ i, 2 ≤ i → i < n+2 → f i = g i) :
    ((List.range (n+2)).map f).sum+a = ((List.range (n+2)).map g).sum+b := by
  induction n with
  | zero => simpa [List.range_succ] using first
  | succ n ih =>
    have before := ih fun i low high => rest i low (by omega)
    rw [List.range_succ,List.map_append,List.sum_append,List.map_append,List.sum_append]
    simp only [List.map_singleton,List.sum_singleton,rest (n+2) (by omega) (by omega)]
    omega

theorem segmentWords_small (m : Buffer) (pktAddr length : Nat) : ∀ word ∈ segmentWords m pktAddr length, word < 2^16 := by
  have octet (j : Nat) : segmentOctet m pktAddr length j < 2^8 := by
    unfold segmentOctet
    split
    · exact iordByte_toNat _ _
    · decide
  intro word member
  obtain ⟨i,-,rfl⟩ := List.mem_map.mp member
  have first := octet (2*i)
  have second := octet (2*i+1)
  omega

theorem reply_exchanged (h : Host) (apart : rxAddr = txAddr ∨ rxAddr+(14+(ipv4GetLength m rxAddr).toNat) ≤ txAddr ∨
      txAddr+(14+(ipv4GetLength m rxAddr).toNat) ≤ rxAddr) (long : 28 ≤ (ipv4GetLength m rxAddr).toNat) :
    Exchanged m h rxAddr (icmpBuildPingReply m h rxAddr txAddr).1 txAddr ∧
    pairAt (icmpBuildPingReply m h rxAddr txAddr).1 (txAddr+36) =
      (~~~(~~~(pairAt m (rxAddr+36)).setWidth 16-0x0800#16)).setWidth 32 := by
  have frame : (14#32+hexOr m (rxAddr+16)).toNat = 14+(ipv4GetLength m rxAddr).toNat := by
    rw [hexOr_eq,toNat_add,← ipv4GetLength_toNat,toNat_ofNat]
    omega
  have copied (j : Nat) := copied_byte (m := m) (j := j) apart
  unfold icmpBuildPingReply
  dsimp only
  rw [frame,hexOr_eq]
  generalize (if rxAddr ≠ txAddr then copyFrame m rxAddr txAddr (14+(ipv4GetLength m rxAddr).toNat) else m) = w at copied ⊢
  have outside (j : Nat) (free : j < 26 ∨ 35 ≤ j) : byteAt (memIowrByte (swapAddress (swapAddress w txAddr (txAddr+6) h.myMac 6)
      (txAddr+30) (txAddr+26) h.myIp 4) (txAddr+34) 0x00#32) (txAddr+j) =
      byteAt (swapAddress w txAddr (txAddr+6) h.myMac 6) (txAddr+j) := by
    rw [byteAt_iowrByte,if_neg (by omega),swapAddress_other (by omega) (by omega) (by omega)]
  have behind (j : Nat) (low : 12 ≤ j) : byteAt (swapAddress w txAddr (txAddr+6) h.myMac 6) (txAddr+j) = byteAt w (txAddr+j) :=
    swapAddress_other (by omega) (by omega) (by omega)
  refine ⟨⟨fun j low high free => ?_,?_,fun i => ?_,fun i => ?_,fun i => ?_,fun i => ?_⟩,?_⟩
  · rw [byteAt_writeChecksum (by omega) (by omega),outside j (by omega),behind j low,copied j high]
  · rw [byteAt_writeChecksum (by omega) (by omega),byteAt_iowrByte,if_pos rfl]
    rfl
  · rw [byteAt_writeChecksum (by omega) (by omega),Nat.add_assoc,outside _ (by omega),← Nat.add_assoc,
      swapAddress_sender (by omega) i i.isLt]
  · rw [byteAt_writeChecksum (by omega) (by omega),outside _ (by omega),swapAddress_target (by omega) i.isLt,Nat.add_assoc,
      copied _ (by omega),Nat.add_assoc]
  · rw [byteAt_writeChecksum (by omega) (by omega),byteAt_iowrByte,if_neg (by omega),swapAddress_sender (by omega) i i.isLt]
  · rw [byteAt_writeChecksum (by omega) (by omega),byteAt_iowrByte,if_neg (by omega),swapAddress_target (by omega) i.isLt,
      Nat.add_assoc,behind _ (by omega),copied _ (by omega),Nat.add_assoc]
  · rw [pairAt_writeChecksum,pairAt_bytes
      ((outside 36 (by decide)).trans ((behind 36 (by decide)).trans (copied 36 (by omega))))
      ((outside 37 (by decide)).trans ((behind 37 (by decide)).trans (copied 37 (by omega))))]

section Sums
variable {m w : Buffer} {h : Host} {rxAddr txAddr : Nat} (answer : Exchanged m h rxAddr w txAddr) (request : PingRequest m h rxAddr)
include answer request

theorem exchanged_length : ipv4GetLength w txAddr = ipv4GetLength m rxAddr := by
  have long := request.long
  apply eq_of_toNat_eq
  rw [ipv4GetLength_toNat,ipv4GetLength_toNat,pairAt_bytes (answer.rest 16 (by decide) (by omega) (by decide))
    (answer.rest 17 (by decide) (by omega) (by decide))]

theorem exchanged_header : pairSum w (txAddr+14) 10 = pairSum m (rxAddr+14) 10 := by
  have long := request.long
  have ours := request.destination
  have kept (j : Nat) (low : 14 ≤ j) (high : j < 25) : pairAt w (txAddr+j) = pairAt m (rxAddr+j) :=
    pairAt_bytes (answer.rest j (by omega) (by omega) (by omega)) (answer.rest (j+1) (by omega) (by omega) (by omega))
  have source (i : Nat) (few : i < 3) : pairAt w (txAddr+26+i) = pairAt m (rxAddr+30+i) :=
    pairAt_bytes ((answer.sourceIp ⟨i,by omega⟩).trans (congrFun ours _).symm)
      ((answer.sourceIp ⟨i+1,by omega⟩).trans (congrFun ours _).symm)
  have target (i : Nat) (few : i < 3) : pairAt w (txAddr+30+i) = pairAt m (rxAddr+26+i) :=
    pairAt_bytes (answer.destinationIp ⟨i,by omega⟩) (answer.destinationIp ⟨i+1,by omega⟩)
  have one := source 0 (by decide)
  have two := source 2 (by decide)
  have three := target 0 (by decide)
  have four := target 2 (by decide)
  simp only [pairSum] at *
  rw [kept 14 (by decide) (by decide),kept 16 (by decide) (by decide),kept 18 (by decide) (by decide),kept 20 (by decide) (by decide),
    kept 22 (by decide) (by decide),kept 24 (by decide) (by decide),one,two,three,four]
  abel

theorem exchanged_sum : (segmentWords w txAddr ((ipv4GetLength m rxAddr).toNat-20)).sum+((pairAt m (rxAddr+36)).toNat+0x0800) =
    (segmentWords m rxAddr ((ipv4GetLength m rxAddr).toNat-20)).sum+(pairAt w (txAddr+36)).toNat := by
  have long := request.long
  generalize length : (ipv4GetLength m rxAddr).toNat-20 = n
  obtain ⟨q,words⟩ : ∃ q, (n+1)/2 = q+2 := ⟨(n+1)/2-2,by omega⟩
  have octet (j : Nat) (free : j = 1 ∨ 4 ≤ j) : segmentOctet w txAddr n j = segmentOctet m rxAddr n j := by
    unfold segmentOctet
    split
    · rw [iordByte_byteAt,iordByte_byteAt m,Nat.add_assoc,answer.rest (34+j) (by omega) (by omega) (by omega),Nat.add_assoc]
    · rfl
  have type (v : Buffer) (a : Nat) : segmentOctet v a n 0 = (byteAt v (a+34)).toNat := by
    rw [segmentOctet,if_pos (by omega),iordByte_byteAt,toNat_setWidth_of_le (by decide)]
  have pair (v : Buffer) (a : Nat) : segmentOctet v a n 2*2^8+segmentOctet v a n 3 = (pairAt v (a+36)).toNat := by
    rw [pairAt_toNat,segmentOctet,segmentOctet,if_pos (by omega),if_pos (by omega)]
  unfold segmentWords
  rw [words]
  apply sum_exchange
  · have balance (x y z : Nat) : 0*2^8+x+y+(z+0x0800) = 8*2^8+x+z+y := by omega
    rw [pair,pair,octet 1 (.inl rfl),type,type,answer.type,request.type]
    exact balance _ _ _
  · intro i low high
    rw [octet (2*i) (by omega),octet (2*i+1) (by omega)]

theorem exchanged_message (raised : (pairAt w (txAddr+36)).toNat = ((pairAt m (rxAddr+36)).toNat+0x0800)%2^16) :
    icmpValid w txAddr ↔ (pairAt m (rxAddr+36)).toNat < 0xF800 := by
  have field := pairAt_lt m (rxAddr+36)
  have sums := exchanged_sum answer request
  obtain ⟨k,multiple⟩ := total_multiple (segmentWords_small m rxAddr _) request.icmpChecksum
  unfold icmpValid
  rw [exchanged_length answer request]
  constructor
  · intro valid
    obtain ⟨j,other⟩ := total_multiple (segmentWords_small w txAddr _) valid
    omega
  · exact fun below => total_full (segmentWords_small w txAddr _) (k := k) (by omega)
end Sums

theorem ping_reply_valid (m : Buffer) (h : Host) (rxAddr txAddr : Nat) (request : PingRequest m h rxAddr)
    (apart : rxAddr = txAddr ∨ rxAddr+(14+(ipv4GetLength m rxAddr).toNat) ≤ txAddr ∨
      txAddr+(14+(ipv4GetLength m rxAddr).toNat) ≤ rxAddr) : icmpProcessReceived m h rxAddr txAddr =
      (1,(icmpBuildPingReply m h rxAddr txAddr).1,some (icmpBuildPingReply m h rxAddr txAddr).2) ∧
    (PingReply m h rxAddr (icmpBuildPingReply m h rxAddr txAddr).1 txAddr ↔ (pairAt m (rxAddr+36)).toNat < 0xF800) := by
  obtain ⟨answer,stored⟩ := reply_exchanged h apart request.long
  have message := exchanged_message answer request (by
    have field := pairAt_lt m (rxAddr+36)
    rw [stored,toNat_setWidth,checksum_raised,toNat_setWidth,Nat.mod_eq_of_lt field]
    omega)
  refine ⟨if_pos ⟨request.type,request.destination⟩,fun reply => message.mp reply.icmpChecksum,fun below => ⟨answer,?_,message.mpr below⟩⟩
  have verified := request.ipv4Checksum
  rwa [ipv4VerifyChecksum,← exchanged_header answer request] at verified

def pingHost : Host := ⟨fun _ => 0,fun _ => 0,0⟩

-- A request without payload. Its identifier makes the checksum what it is.
def pingFrame (checksum identifier : BitVec 16) : Buffer := fun word =>
  match word with
  | 3 => 0x08004500#32
  | 4 => 0x001C0000#32
  | 5 => 0x00004001#32
  | 6 => 0x7AE20000#32
  | 8 => 0x00000800#32
  | 9 => halves checksum identifier
  | _ => 0

theorem ping_reply_valid_zero :
    PingReply (pingFrame 0xF7FF#16 0#16) pingHost 0 (icmpBuildPingReply (pingFrame 0xF7FF#16 0#16) pingHost 0 0).1 0 :=
  (ping_reply_valid (pingFrame 0xF7FF#16 0#16) pingHost 0 0
    ⟨by decide,by decide,by decide,by decide,by decide,by decide,by decide +kernel⟩ (.inl rfl)).2.mpr (by decide)

theorem ping_reply_invalid : PingRequest (pingFrame 0xF800#16 0xFFFE#16) pingHost 0 ∧
    ¬PingReply (pingFrame 0xF800#16 0xFFFE#16) pingHost 0 (icmpBuildPingReply (pingFrame 0xF800#16 0xFFFE#16) pingHost 0 0).1 0 :=
  ⟨⟨by decide,by decide,by decide,by decide,by decide,by decide,by decide +kernel⟩,
    fun reply => absurd reply.icmpChecksum (by decide +kernel)⟩
end Patmos.Ethlib
