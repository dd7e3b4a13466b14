import Patmos.MiiTimestamp
namespace Patmos.Mii
section
variable (buffer : BitVec 64) (byte : BitVec 8) (low : 8 ≤ start) (fits : start+len ≤ 64)

-- The bytes of a frame as they stand in the shift register.
def push : BitVec 64 := (buffer <<< 8) ||| byte.setWidth 64

def bufferOf (bytes : List (BitVec 8)) : BitVec 64 := bytes.foldl push 0

theorem bufferOf_snoc (bytes : List (BitVec 8)) (byte : BitVec 8) : bufferOf (bytes ++ [byte]) = push (bufferOf bytes) byte := by
  rw [bufferOf,List.foldl_append]
  rfl

theorem push_getLsbD (i : Nat) :
    (push buffer byte).getLsbD i = if i < 8 then byte.getLsbD i else decide (i < 64) && buffer.getLsbD (i-8) := by
  rw [push]
  by_cases low : i < 8
  · have wide : i < 64 := by omega
    simp [low,wide]
  · have above : byte.getLsbD i = false := BitVec.getLsbD_of_ge byte i (by omega)
    simp [low,above]

theorem push_byte : (push buffer byte).extractLsb' 0 8 = byte := by
  apply BitVec.eq_of_getLsbD_eq
  intro i inside
  rw [BitVec.getLsbD_extractLsb',push_getLsbD,Nat.zero_add,if_pos inside,decide_eq_true inside,Bool.true_and]

theorem push_half (first second : BitVec 8) : (push (push buffer first) second).extractLsb' 0 16 = first ++ second := by
  apply BitVec.eq_of_getLsbD_eq
  intro i inside
  have wide : i < 64 := by omega
  rw [BitVec.getLsbD_extractLsb',push_getLsbD,push_getLsbD,BitVec.getLsbD_append]
  by_cases low : i < 8
  · simp [low,inside]
  · have high : i-8 < 8 := by omega
    simp [inside,wide,high]

theorem push_upper (low : 8 ≤ start) (fits : start+len ≤ 64) :
    (push buffer byte).extractLsb' start len = buffer.extractLsb' (start-8) len := by
  apply BitVec.eq_of_getLsbD_eq
  intro i inside
  rw [BitVec.getLsbD_extractLsb',BitVec.getLsbD_extractLsb',push_getLsbD,if_neg (by omega),
    decide_eq_true (show start+i < 64 by omega),Bool.true_and,show start+i-8 = start-8+i by omega]
end

section
variable (p : Parser) (regBuffer : BitVec 64)

-- The registers after a byte has been counted and the parser has seen it twice.
def feed : Parser := (({p with byteCntReg := (p.byteCntReg+1) % 2^11}).next regBuffer false true).next regBuffer false true

-- The parser takes no more notice of a frame.
def Ended : Prop := p.stateReg = .stPCFHead ∨ p.stateReg = .stEOF

def typeDue : Prop := (p.byteCntReg = 2 ∧ p.isVLANFrameReg = false) ∨ (p.byteCntReg = 6 ∧ p.isVLANFrameReg = true)

def headDue : Prop :=
  (p.ptpMsgTypeReg = constPTPDlyReqType ∧ p.byteCntReg = 44) ∨ (p.ptpMsgTypeReg ≠ constPTPDlyReqType ∧ p.byteCntReg = 34)

-- Registers that a later state expects to find cleared.
structure Unused : Prop where
  dst : p.udpDstPortReg = 0
  src : p.udpSrcPortReg = 0
  ptp : p.isPTPFrameReg = false

structure Settled : Prop where
  unclear : p.bufClrReg = false
  small : p.byteCntReg < 2^11
  waits : match p.stateReg with
    | .stDstMAC | .stSrcMAC => p.byteCntReg ≠ 6 ∧ p.ethTypeReg = 0 ∧ Unused p
    | .stTypeEth => p.ethTypeReg = 0 ∧ (typeDue p → regBuffer.extractLsb' 0 16 = 0) ∧ Unused p
    | .stIPhead => p.byteCntReg ≠ 20 ∧ (p.byteCntReg = 10 → regBuffer.extractLsb' 0 8 = 17#8 → p.isUDPFrameReg = true) ∧ Unused p
    | .stUDPhead => p.byteCntReg ≠ 8 ∧
      (p.byteCntReg = 4 → p.udpDstPortReg = regBuffer.extractLsb' 16 16 ∧ p.udpSrcPortReg = regBuffer.extractLsb' 0 16) ∧
      (p.byteCntReg ≠ 4 → isPTPPort p.udpDstPortReg → isPTPPort p.udpSrcPortReg → p.isPTPFrameReg = true)
    | .stPTPhead => (p.byteCntReg = 1 → p.ptpMsgTypeReg = regBuffer.extractLsb' 0 8) ∧ ¬headDue p
    | _ => False

def Doubles : Prop :=
  p.stateReg = .stTypeEth ∧ p.isVLANFrameReg = true ∧ p.byteCntReg = 6 ∧ isVLAN (regBuffer.extractLsb' 0 16) = true
end

section Settled
variable {p : Parser} {regBuffer : BitVec 64}

theorem counted_false (unclear : p.bufClrReg = false) : p.counted false = p := by
  cases p
  cases unclear
  rfl

theorem settled_next (settled : Settled p regBuffer) (wrByteReg valid : Bool) :
    p.next regBuffer wrByteReg valid = p.counted wrByteReg := by
  obtain ⟨unclear,small,waits⟩ := settled
  cases state : p.stateReg with
  | stCollectSFD | stPCFHead | stEOF => simp [state] at waits
  | stDstMAC | stSrcMAC => simp only [state] at waits; simp [Parser.next,state,Parser.address,waits.1]
  | stTypeEth =>
    simp only [state] at waits
    obtain ⟨zero,due,-⟩ := waits
    simp only [Parser.next,state,Parser.typeEth,zero,ne_eq,not_true_eq_false,if_false]
    split
    case isTrue now =>
      rw [due (by simpa [typeDue] using now)]
      simp [Parser.counted,zero]
    case isFalse => rfl
  | stIPhead =>
    simp only [state] at waits
    obtain ⟨more,protocol,-⟩ := waits
    simp only [Parser.next,state,Parser.ipHead,more,if_false]
    split
    case isTrue now =>
      split
      case isTrue udp => simp [Parser.counted,protocol now udp]
      case isFalse => rfl
    case isFalse => rfl
  | stUDPhead =>
    simp only [state] at waits
    obtain ⟨more,ports,ptp⟩ := waits
    simp only [Parser.next,state,Parser.udpHead,more,if_false]
    split
    case isTrue now =>
      rw [← (ports now).1,← (ports now).2]
      simp [Parser.counted]
    case isFalse other =>
      split
      case isTrue both => simp [Parser.counted,ptp other both.1 both.2]
      case isFalse => rfl
  | stPTPhead =>
    simp only [state] at waits
    obtain ⟨message,more⟩ := waits
    simp only [Parser.next,state,Parser.ptpHead]
    split
    case isTrue now =>
      rw [← message now]
      rfl
    case isFalse =>
      split
      case isTrue =>
        rw [if_neg (by simpa [headDue] using more)]
      case isFalse => rfl

def bump (p : Parser) : Parser := {p with byteCntReg := (p.byteCntReg+1) % 2^11}

theorem feed_eq (p : Parser) (regBuffer : BitVec 64) :
    feed p regBuffer = ((bump p).next regBuffer false true).next regBuffer false true := rfl

structure TypeSeen (p : Parser) (regBuffer : BitVec 64) : Prop where
  state : p.stateReg = .stTypeEth
  type : p.ethTypeReg = regBuffer.extractLsb' 0 16
  known : p.ethTypeReg ≠ 0
  due : typeDue p
  unclear : p.bufClrReg = false
  small : p.byteCntReg < 2^11
  unused : Unused p

theorem bump_small (p : Parser) : (bump p).byteCntReg < 2^11 := Nat.mod_lt _ (by decide)

theorem ports_unused (unused : Unused p) : ¬(isPTPPort p.udpDstPortReg = true ∧ isPTPPort p.udpSrcPortReg = true) := by
  rw [unused.dst]
  exact fun both => absurd both.1 (by decide)

namespace Settled
theorem ip (state : p.stateReg = .stIPhead) (unclear : p.bufClrReg = false) (small : p.byteCntReg < 2^11)
    (more : p.byteCntReg ≠ 20) (protocol : p.byteCntReg = 10 → regBuffer.extractLsb' 0 8 = 17#8 → p.isUDPFrameReg = true)
    (unused : Unused p) : Settled p regBuffer :=
  ⟨unclear,small,by simp only [state]; exact ⟨more,protocol,unused⟩⟩

theorem udp (state : p.stateReg = .stUDPhead) (unclear : p.bufClrReg = false) (small : p.byteCntReg < 2^11)
    (more : p.byteCntReg ≠ 8)
    (ports : p.byteCntReg = 4 → p.udpDstPortReg = regBuffer.extractLsb' 16 16 ∧ p.udpSrcPortReg = regBuffer.extractLsb' 0 16)
    (ptp : p.byteCntReg ≠ 4 → isPTPPort p.udpDstPortReg → isPTPPort p.udpSrcPortReg → p.isPTPFrameReg = true) :
    Settled p regBuffer :=
  ⟨unclear,small,by simp only [state]; exact ⟨more,ports,ptp⟩⟩

theorem ptp (state : p.stateReg = .stPTPhead) (unclear : p.bufClrReg = false) (small : p.byteCntReg < 2^11)
    (message : p.byteCntReg = 1 → p.ptpMsgTypeReg = regBuffer.extractLsb' 0 8) (more : ¬headDue p) : Settled p regBuffer :=
  ⟨unclear,small,by simp only [state]; exact ⟨message,more⟩⟩
end Settled

theorem headDue_early (early : p.byteCntReg < 34) : ¬headDue p := by
  unfold headDue
  omega

theorem first_step {old : BitVec 64} (settled : Settled p old) (regBuffer : BitVec 64) (valid : Bool) :
    Settled ((bump p).next regBuffer false valid) regBuffer ∨ ((bump p).next regBuffer false valid).stateReg = .stEOF ∨
      TypeSeen ((bump p).next regBuffer false valid) regBuffer := by
  obtain ⟨unclear,-,waits⟩ := settled
  have small := bump_small p
  have plain : (bump p).counted false = bump p := by simp [Parser.counted,bump,unclear]
  have none : 0 < 2^11 := Nat.two_pow_pos 11
  unfold Parser.next
  rw [plain]
  obtain ⟨state,_,_,_,_,_,_,_,_,_⟩ := p
  cases state with
  | stCollectSFD | stPCFHead | stEOF => exact waits.elim
  | stDstMAC =>
    obtain ⟨-,zero,unused⟩ := waits
    dsimp only [bump,Parser.address]
    split
    case isTrue => exact .inl ⟨unclear,none,by simp,zero,unused.1,unused.2,unused.3⟩
    case isFalse more => exact .inl ⟨unclear,small,more,zero,unused.1,unused.2,unused.3⟩
  | stSrcMAC =>
    obtain ⟨-,zero,unused⟩ := waits
    dsimp only [bump,Parser.address]
    split
    case isTrue => exact .inl ⟨unclear,none,zero,by simp [typeDue],unused.1,unused.2,unused.3⟩
    case isFalse more => exact .inl ⟨unclear,small,more,zero,unused.1,unused.2,unused.3⟩
  | stTypeEth =>
    obtain ⟨rfl,-,unused⟩ := waits
    dsimp only [bump,Parser.typeEth]
    rw [if_neg (not_not.mpr rfl)]
    split
    case isTrue now =>
      by_cases unknown : regBuffer.extractLsb' 0 16 = 0
      · exact .inl ⟨unclear,small,unknown,fun _ => unknown,unused.1,unused.2,unused.3⟩
      · exact .inr (.inr ⟨rfl,rfl,unknown,by simpa [typeDue] using now,unclear,small,unused.1,unused.2,unused.3⟩)
    case isFalse later =>
      exact .inl ⟨unclear,small,rfl,fun now => absurd (by simpa [typeDue] using now) later,unused.1,unused.2,unused.3⟩
  | stIPhead =>
    obtain ⟨-,-,unused⟩ := waits
    dsimp only [bump,Parser.ipHead]
    split
    case isTrue =>
      split
      case isTrue => exact .inl ⟨unclear,none,by simp,by simp,fun _ left right => absurd ⟨left,right⟩ (ports_unused unused)⟩
      case isFalse => exact .inr (.inl rfl)
    case isFalse more =>
      split
      case isTrue =>
        split
        case isTrue => exact .inl ⟨unclear,small,more,fun _ _ => rfl,unused.1,unused.2,unused.3⟩
        case isFalse other => exact .inl ⟨unclear,small,more,fun _ udp => absurd udp other,unused.1,unused.2,unused.3⟩
      case isFalse other => exact .inl ⟨unclear,small,more,fun now => absurd now other,unused.1,unused.2,unused.3⟩
  | stUDPhead =>
    dsimp only [bump,Parser.udpHead]
    split
    case isTrue =>
      split
      case isTrue => exact .inl ⟨unclear,none,by simp,headDue_early (by simp)⟩
      case isFalse => exact .inr (.inl rfl)
    case isFalse more =>
      split
      case isTrue now => exact .inl ⟨unclear,small,more,fun _ => ⟨rfl,rfl⟩,absurd now⟩
      case isFalse other =>
        split
        case isTrue => exact .inl ⟨unclear,small,more,fun now => absurd now other,fun _ _ _ => rfl⟩
        case isFalse unmatched =>
          exact .inl ⟨unclear,small,more,fun now => absurd now other,fun _ left right => absurd ⟨left,right⟩ unmatched⟩
  | stPTPhead =>
    dsimp only [bump,Parser.ptpHead]
    split
    case isTrue now => exact .inl ⟨unclear,small,fun _ => rfl,headDue_early (now.trans_lt (by decide))⟩
    case isFalse other =>
      split
      case isTrue =>
        split
        case isTrue => exact .inr (.inl rfl)
        case isFalse more => exact .inl ⟨unclear,small,fun now => absurd now other,by simpa [headDue] using more⟩
      case isFalse low => exact .inl ⟨unclear,small,fun now => absurd now other,headDue_early ((not_lt.mp low).trans_lt (by decide))⟩

theorem second_step (seen : TypeSeen p regBuffer) (valid : Bool) :
    Settled (p.next regBuffer false valid) regBuffer ∨ Ended (p.next regBuffer false valid) ∨ Doubles p regBuffer := by
  obtain ⟨state,type,known,due,unclear,small,unused⟩ := seen
  have none : 0 < 2^11 := Nat.two_pow_pos 11
  simp only [Parser.next,state,Parser.typeEth,counted_false unclear,ne_eq,known,not_false_eq_true,if_true]
  split
  case isTrue vlan =>
    by_cases first : p.isVLANFrameReg = true
    · have count : p.byteCntReg = 6 := by simpa [typeDue,first] using due
      exact .inr (.inr ⟨state,first,count,type ▸ vlan⟩)
    · have count : p.byteCntReg = 2 := by simpa [typeDue,first] using due
      exact .inl ⟨unclear,small,rfl,by simp [typeDue,count],unused.1,unused.2,unused.3⟩
  case isFalse =>
    split
    case isTrue => exact .inl (.ptp rfl unclear none (by simp) (headDue_early (by simp)))
    case isFalse =>
      split
      case isTrue => exact .inl (.ip rfl unclear none (by simp) (by simp) ⟨unused.1,unused.2,unused.3⟩)
      case isFalse =>
        split
        case isTrue => exact .inr (.inl (.inl rfl))
        case isFalse => exact .inr (.inl (.inr rfl))
end Settled
end Patmos.Mii
