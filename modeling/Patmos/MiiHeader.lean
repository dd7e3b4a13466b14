import Patmos.MiiFrame
namespace Patmos.Mii
open Parser

def sfd : List (BitVec 8) := [0x55#8,0x55#8,0x55#8,0x55#8,0x55#8,0x55#8,0x55#8,0xD5#8]

def parseFrom (p : Parser) (seen : List (BitVec 8)) : List (BitVec 8) → Parser
  | [] => p
  | byte :: rest => parseFrom (feed p (bufferOf (seen ++ [byte]))) (seen ++ [byte]) rest

-- The registers when all bytes behind the delimiter have been taken in.
def parse (body : List (BitVec 8)) : Parser := parseFrom .start sfd body

theorem parseFrom_snoc (p : Parser) (seen body : List (BitVec 8)) (byte : BitVec 8) :
    parseFrom p seen (body ++ [byte]) = feed (parseFrom p seen body) (bufferOf (seen ++ body ++ [byte])) := by
  induction body generalizing p seen with
  | nil => simp [parseFrom]
  | cons first rest ih =>
    rw [List.cons_append,parseFrom,parseFrom,ih]
    simp

theorem parse_snoc (body : List (BitVec 8)) (byte : BitVec 8) :
    parse (body ++ [byte]) = feed (parse body) (bufferOf (sfd ++ body ++ [byte])) := parseFrom_snoc _ _ _ _

theorem next_eof {p : Parser} (state : p.stateReg = .stEOF) (regBuffer : BitVec 64) (wrByteReg valid : Bool) :
    p.next regBuffer wrByteReg valid = p.eof valid := by
  rw [next,state]

theorem feed_ended {p : Parser} (ended : Ended p) (regBuffer : BitVec 64) : (feed p regBuffer).stateReg = .stEOF := by
  rcases ended with state | state <;> simp [feed,next,state,eof]

theorem parse_ended {body : List (BitVec 8)} (ended : Ended (parse body)) (more : List (BitVec 8)) :
    Ended (parse (body ++ more)) := by
  induction more using List.reverseRecOn with
  | nil => rwa [List.append_nil]
  | append_singleton more byte ih =>
    rw [← List.append_assoc,parse_snoc]
    exact .inr (feed_ended ih _)

section Positions
variable {body : List (BitVec 8)}

def octet (bytes : List (BitVec 8)) (i : Nat) : BitVec 8 := bytes.getD i 0
def half (bytes : List (BitVec 8)) (i : Nat) : BitVec 16 := octet bytes i ++ octet bytes (i+1)

theorem take_next (inside : k < body.length) : body.take (k+1) = body.take k ++ [octet body k] := by
  simp [octet,inside]

def bufferAt (body : List (BitVec 8)) (k : Nat) : BitVec 64 := bufferOf (sfd ++ body.take k)

theorem bufferAt_next (inside : k < body.length) : bufferAt body (k+1) = push (bufferAt body k) (octet body k) := by
  rw [bufferAt,take_next inside,← List.append_assoc,bufferOf_snoc]
  rfl

theorem parse_next (inside : k < body.length) :
    parse (body.take (k+1)) = feed (parse (body.take k)) (bufferAt body (k+1)) := by
  rw [bufferAt,take_next inside,parse_snoc,List.append_assoc]

theorem byte_at (inside : k < body.length) : (bufferAt body (k+1)).extractLsb' 0 8 = octet body k := by
  rw [bufferAt_next inside,push_byte]

theorem half_at (inside : k+1 < body.length) : (bufferAt body (k+2)).extractLsb' 0 16 = half body k := by
  rw [bufferAt_next inside,bufferAt_next (by omega),push_half]
  rfl

theorem upper_at (inside : k+3 < body.length) : (bufferAt body (k+4)).extractLsb' 16 16 = half body k := by
  rw [bufferAt_next inside,bufferAt_next (by omega),push_upper _ _ (by decide) (by decide),push_upper _ _ (by decide) (by decide),
    half_at (by omega)]
end Positions

-- The frame as the standards lay it out, behind the delimiter.
section Layout
variable (body : List (BitVec 8))

def offset : Nat := if isVLAN (half body 12) then 4 else 0
def ethType : BitVec 16 := half body (12+offset body)
def base : Nat := 14+offset body

def ptpLength (messageType : BitVec 8) : Nat := if messageType = constPTPDlyReqType then 44 else 34

def headerLength : Nat :=
  if isPTP (ethType body) then ptpLength (octet body (base body))
  else if ethType body = constIPv4t then
    if octet body (base body+9) = 17#8 then
      if isPTPPort (half body (base body+20)) && isPTPPort (half body (base body+22)) then
        28+ptpLength (octet body (base body+28))
      else 28
    else 20
  else 0
end Layout

def protocolState (ethType : BitVec 16) : ParserState :=
  if isPTP ethType then .stPTPhead else if ethType = constIPv4t then .stIPhead
  else if ethType = constPCFt then .stPCFHead else .stEOF

section Feed
variable {p q : Parser} {regBuffer : BitVec 64}

theorem bump_eq (few : p.byteCntReg+1 < 2^11) : bump p = {p with byteCntReg := p.byteCntReg+1} := by
  rw [bump,Nat.mod_eq_of_lt few]

theorem feed_settles (step : (bump p).next regBuffer false true = q) (settled : Settled q regBuffer) :
    feed p regBuffer = q := by
  rw [feed_eq,step,settled_next settled,counted_false settled.unclear]

theorem feed_counts (few : p.byteCntReg+1 < 2^11) (settled : Settled {p with byteCntReg := p.byteCntReg+1} regBuffer) :
    feed p regBuffer = {p with byteCntReg := p.byteCntReg+1} := by
  apply feed_settles _ settled
  rw [bump_eq few,settled_next settled,counted_false settled.unclear]
end Feed

section Phases
variable {body : List (BitVec 8)} {p q : Parser}

theorem parse_step (before : parse (body.take k) = p) (inside : k < body.length)
    (step : feed p (bufferAt body (k+1)) = q) : parse (body.take (k+1)) = q := by
  rw [parse_next inside,before,step]

theorem parse_dst (few : k < 6) (inside : k ≤ body.length) :
    parse (body.take k) = {start with byteCntReg := k} := by
  induction k with
  | zero => rfl
  | succ k ih =>
    have small : k+1 < 2^11 := by omega
    have more : k+1 ≠ 6 := by omega
    refine parse_step (ih (by omega) (by omega)) inside ?_
    exact feed_counts small ⟨rfl,small,more,rfl,rfl,rfl,rfl⟩

theorem parse_src (few : k < 6) (inside : 6+k ≤ body.length) :
    parse (body.take (6+k)) = {start with stateReg := .stSrcMAC, byteCntReg := k} := by
  induction k with
  | zero => exact parse_step (k := 5) (parse_dst (by decide) (by omega)) inside rfl
  | succ k ih =>
    have small : k+1 < 2^11 := by omega
    have more : k+1 ≠ 6 := by omega
    refine parse_step (k := 6+k) (ih (by omega) (by omega)) inside ?_
    exact feed_counts small ⟨rfl,small,more,rfl,rfl,rfl,rfl⟩

theorem parse_type (few : k < 2) (inside : 12+k ≤ body.length) :
    parse (body.take (12+k)) = {start with stateReg := .stTypeEth, byteCntReg := k} := by
  induction k with
  | zero => exact parse_step (k := 11) (parse_src (k := 5) (by decide) (by omega)) inside rfl
  | succ k ih =>
    have small : k+1 < 2^11 := by omega
    have more : k+1 ≠ 2 := by omega
    refine parse_step (k := 12+k) (ih (by omega) (by omega)) inside ?_
    exact feed_counts small ⟨rfl,small,rfl,by simp [typeDue,start,more],rfl,rfl,rfl⟩

theorem feed_type {regBuffer : BitVec 64} (state : p.stateReg = .stTypeEth) (zero : p.ethTypeReg = 0)
    (unclear : p.bufClrReg = false) (due : typeDue {p with byteCntReg := p.byteCntReg+1})
    (type : regBuffer.extractLsb' 0 16 = t) :
    feed p regBuffer = ({p with byteCntReg := p.byteCntReg+1, ethTypeReg := t}).next regBuffer false true := by
  have few : p.byteCntReg+1 < 2^11 := by
    rcases due with ⟨count,-⟩ | ⟨count,-⟩ <;> simp only at count <;> omega
  have now : (p.byteCntReg+1 = 2 ∧ (!p.isVLANFrameReg) = true) ∨ (p.byteCntReg+1 = 6 ∧ p.isVLANFrameReg = true) := by
    simpa [typeDue] using due
  rw [feed_eq,bump_eq few]
  congr 1
  simp only [next,state,typeEth,zero,if_pos now,type,counted]
  simp [unclear]

theorem next_tag (state : p.stateReg = .stTypeEth) (tag : isVLAN p.ethTypeReg = true) (unclear : p.bufClrReg = false)
    (regBuffer : BitVec 64) :
    p.next regBuffer false true = {p with isVLANFrameReg := true, ethTypeReg := 0} := by
  have known : p.ethTypeReg ≠ 0 := fun zero => absurd (zero ▸ tag) (by decide)
  simp only [next,state,typeEth,counted_false unclear,ne_eq,known,not_false_eq_true,if_true,tag]

theorem next_typed (state : p.stateReg = .stTypeEth) (known : p.ethTypeReg ≠ 0) (single : isVLAN p.ethTypeReg = false)
    (unclear : p.bufClrReg = false) (unmarked : p.isPTPFrameReg = false) (regBuffer : BitVec 64) :
    p.next regBuffer false true =
      {p with stateReg := protocolState p.ethTypeReg, byteCntReg := 0, isPTPFrameReg := isPTP p.ethTypeReg} := by
  simp only [next,state,typeEth,counted_false unclear,ne_eq,known,not_false_eq_true,if_true,single,
    protocolState]
  cases ptp : isPTP p.ethTypeReg with
  | true => simp
  | false =>
    simp only [Bool.false_eq_true,if_false,unmarked]
    split
    case isTrue => rfl
    case isFalse => split <;> rfl

theorem parse_tag (tag : isVLAN (half body 12) = true) (few : k < 4) (inside : 14+k ≤ body.length) :
    parse (body.take (14+k)) = {start with stateReg := .stTypeEth, byteCntReg := 2+k, isVLANFrameReg := true} := by
  induction k with
  | zero =>
    refine parse_step (k := 13) (parse_type (k := 1) (by decide) (by omega)) inside ?_
    rw [feed_type rfl rfl rfl (.inl ⟨rfl,rfl⟩) (half_at inside),next_tag rfl tag rfl]
    rfl
  | succ k ih =>
    have small : 2+k+1 < 2^11 := by omega
    have more : 2+k+1 ≠ 6 := by omega
    refine parse_step (k := 14+k) (ih (by omega) (by omega)) inside ?_
    exact feed_counts small ⟨rfl,small,rfl,by simp [typeDue,more],rfl,rfl,rfl⟩

def typed (body : List (BitVec 8)) : Parser :=
  {start with
    stateReg := protocolState (ethType body)
    ethTypeReg := ethType body
    isVLANFrameReg := isVLAN (half body 12)
    isPTPFrameReg := isPTP (ethType body)}

theorem parse_typed (known : ethType body ≠ 0) (single : isVLAN (ethType body) = false) (inside : base body ≤ body.length) :
    parse (body.take (base body)) = typed body := by
  unfold base at inside ⊢
  unfold typed
  by_cases tag : isVLAN (half body 12) = true
  · have far : offset body = 4 := by simp [offset,tag]
    have type : ethType body = half body 16 := by rw [ethType,far]
    rw [far] at inside ⊢
    rw [type] at known single ⊢
    refine parse_step (k := 17) (parse_tag tag (k := 3) (by decide) (by omega)) inside ?_
    rw [tag]
    exact (feed_type rfl rfl rfl (.inr ⟨rfl,rfl⟩) (half_at inside)).trans (next_typed rfl known single rfl rfl _)
  · have near : offset body = 0 := by simp [offset,tag]
    have type : ethType body = half body 12 := by rw [ethType,near]
    rw [near] at inside ⊢
    rw [type] at known single ⊢
    refine parse_step (k := 13) (parse_type (k := 1) (by decide) (by omega)) inside ?_
    rw [Bool.eq_false_iff.mpr tag]
    exact (feed_type rfl rfl rfl (.inl ⟨rfl,rfl⟩) (half_at inside)).trans (next_typed rfl known single rfl rfl _)

section Reads
variable {regBuffer : BitVec 64}

theorem next_protocol (state : p.stateReg = .stIPhead) (count : p.byteCntReg = 10) (unclear : p.bufClrReg = false)
    (other : p.isUDPFrameReg = false) (byte : regBuffer.extractLsb' 0 8 = b) :
    p.next regBuffer false true = {p with isUDPFrameReg := decide (b = 17#8)} := by
  have more : p.byteCntReg ≠ 20 := by omega
  simp only [next,state,ipHead,counted_false unclear]
  rw [if_neg more,if_pos count,byte]
  split
  case isTrue udp => simp [udp]
  case isFalse unlike =>
    rw [decide_eq_false unlike,← other,← state]

theorem next_udp (state : p.stateReg = .stIPhead) (count : p.byteCntReg = 20) (unclear : p.bufClrReg = false)
    (udp : p.isUDPFrameReg = true) :
    p.next regBuffer false true = {p with stateReg := .stUDPhead, byteCntReg := 0} := by
  simp only [next,state,ipHead,counted_false unclear]
  rw [if_pos count,if_pos udp]

theorem next_ip_end (state : p.stateReg = .stIPhead) (count : p.byteCntReg = 20) (other : p.isUDPFrameReg = false) :
    (p.next regBuffer false true).stateReg = .stEOF := by
  simp only [next,state,ipHead]
  rw [if_pos count,if_neg (by simp [other])]

theorem next_ports (state : p.stateReg = .stUDPhead) (count : p.byteCntReg = 4) (unclear : p.bufClrReg = false)
    (dst : regBuffer.extractLsb' 16 16 = d) (src : regBuffer.extractLsb' 0 16 = s) :
    p.next regBuffer false true = {p with udpDstPortReg := d, udpSrcPortReg := s} := by
  have more : p.byteCntReg ≠ 8 := by omega
  simp only [next,state,udpHead,counted_false unclear]
  rw [if_neg more,if_pos count,dst,src]

def bothPorts (p : Parser) : Bool := isPTPPort p.udpDstPortReg && isPTPPort p.udpSrcPortReg

theorem next_marks (state : p.stateReg = .stUDPhead) (past : p.byteCntReg ≠ 4) (more : p.byteCntReg ≠ 8)
    (unclear : p.bufClrReg = false) :
    p.next regBuffer false true = {p with isPTPFrameReg := p.isPTPFrameReg || bothPorts p} := by
  simp only [next,state,udpHead,counted_false unclear,bothPorts]
  rw [if_neg more,if_neg past]
  split
  case isTrue both => simp [both]
  case isFalse unmatched =>
    have unmatched : (isPTPPort p.udpDstPortReg && isPTPPort p.udpSrcPortReg) = false := by simpa using unmatched
    simp [unmatched,← state]

theorem next_ptp (state : p.stateReg = .stUDPhead) (count : p.byteCntReg = 8) (unclear : p.bufClrReg = false)
    (ptp : p.isPTPFrameReg = true) :
    p.next regBuffer false true = {p with stateReg := .stPTPhead, byteCntReg := 0} := by
  simp only [next,state,udpHead,counted_false unclear]
  rw [if_pos count,if_pos ptp]

theorem next_udp_end (state : p.stateReg = .stUDPhead) (count : p.byteCntReg = 8) (other : p.isPTPFrameReg = false) :
    (p.next regBuffer false true).stateReg = .stEOF := by
  simp only [next,state,udpHead]
  rw [if_pos count,if_neg (by simp [other])]

theorem next_message (state : p.stateReg = .stPTPhead) (count : p.byteCntReg = 1) (unclear : p.bufClrReg = false)
    (byte : regBuffer.extractLsb' 0 8 = b) : p.next regBuffer false true = {p with ptpMsgTypeReg := b} := by
  simp only [next,state,ptpHead,counted_false unclear]
  rw [if_pos count,byte]

theorem ptpLength_le (messageType : BitVec 8) : 34 ≤ ptpLength messageType ∧ ptpLength messageType ≤ 44 := by
  unfold ptpLength
  split <;> decide

theorem next_ptp_end (state : p.stateReg = .stPTPhead) (count : p.byteCntReg = ptpLength p.ptpMsgTypeReg) :
    (p.next regBuffer false true).stateReg = .stEOF := by
  have due : (p.ptpMsgTypeReg = constPTPDlyReqType ∧ p.byteCntReg = 44) ∨
      (p.ptpMsgTypeReg ≠ constPTPDlyReqType ∧ p.byteCntReg = 34) := by
    by_cases request : p.ptpMsgTypeReg = constPTPDlyReqType
    · exact .inl ⟨request,by rw [count,ptpLength,if_pos request]⟩
    · exact .inr ⟨request,by rw [count,ptpLength,if_neg request]⟩
  have past : p.byteCntReg ≠ 1 := by omega
  have far : 2 < p.byteCntReg := by omega
  simp only [next,state,ptpHead,past,if_false,far,if_true,if_pos due]

theorem feed_ends (step : ((bump p).next regBuffer false true).stateReg = .stEOF) : Ended (feed p regBuffer) := by
  rw [feed_eq,next_eof step]
  exact .inr rfl
end Reads

-- A header that begins behind the first bytes of the frame.
section Header
variable (entered : parse (body.take first) = p) (zero : p.byteCntReg = 0) (unclear : p.bufClrReg = false)
include entered zero unclear

section
variable (state : p.stateReg = .stIPhead) (unused : Unused p) (other : p.isUDPFrameReg = false)
include state unused other

theorem parse_ip (few : k < 20) (inside : first+k ≤ body.length) : parse (body.take (first+k)) =
      {p with byteCntReg := k, isUDPFrameReg := decide (10 ≤ k) && decide (octet body (first+9) = 17#8)} := by
  induction k with
  | zero =>
    cases p
    simp_all
  | succ k ih =>
    have small : k+1 < 2^11 := by omega
    have more : k+1 ≠ 20 := by omega
    refine parse_step (k := first+k) (ih (by omega) (by omega)) inside ?_
    by_cases protocol : k = 9
    · subst protocol
      have byte := byte_at inside
      refine feed_settles ?_ (.ip state unclear small more (fun _ udp => ?_) ⟨unused.1,unused.2,unused.3⟩)
      · exact next_protocol state rfl unclear rfl byte
      · rw [byte] at udp
        simp [udp]
    · have same : decide (10 ≤ k+1) = decide (10 ≤ k) := by simp only [decide_eq_decide]; omega
      rw [same]
      exact feed_counts small (.ip state unclear small more (fun now => absurd now (by simp only; omega))
        ⟨unused.1,unused.2,unused.3⟩)

theorem parse_ip_end (unlike : octet body (first+9) ≠ 17#8) (inside : first+20 ≤ body.length) :
    Ended (parse (body.take (first+20))) := by
  have before := parse_ip entered zero unclear state unused other (k := 19) (by decide) (by omega)
  rw [parse_step before inside rfl]
  apply feed_ends
  have small : 19+1 < 2^11 := by decide
  rw [bump_eq small]
  exact next_ip_end state rfl (by simp [unlike])

theorem parse_ip_udp (udp : octet body (first+9) = 17#8) (inside : first+20 ≤ body.length) :
    parse (body.take (first+20)) = {p with stateReg := .stUDPhead, byteCntReg := 0, isUDPFrameReg := true} := by
  have before := parse_ip entered zero unclear state unused other (k := 19) (by decide) (by omega)
  have small : 19+1 < 2^11 := by decide
  have none : 0 < 2^11 := Nat.two_pow_pos 11
  refine parse_step before inside (feed_settles ?_ (.udp rfl unclear none (by simp) (by simp) fun _ left right =>
    absurd ⟨left,right⟩ (ports_unused unused)))
  rw [bump_eq small,next_udp]
  · simp [udp]
  · exact state
  · rfl
  · exact unclear
  · simp [udp]
end

theorem parse_udp (state : p.stateReg = .stUDPhead) (unused : Unused p) (few : k < 4) (inside : first+k ≤ body.length) :
    parse (body.take (first+k)) = {p with byteCntReg := k} := by
  induction k with
  | zero =>
    cases p
    simp_all
  | succ k ih =>
    have small : k+1 < 2^11 := by omega
    have more : k+1 ≠ 8 := by omega
    have before : k+1 ≠ 4 := by omega
    refine parse_step (k := first+k) (ih (by omega) (by omega)) inside ?_
    exact feed_counts small (.udp state unclear small more (fun now => absurd now before) fun _ left right =>
      absurd ⟨left,right⟩ (ports_unused unused))

def ported (p : Parser) (body : List (BitVec 8)) (first : Nat) : Parser :=
  {p with udpDstPortReg := half body first, udpSrcPortReg := half body (first+2)}

section
variable (state : p.stateReg = .stUDPhead) (unused : Unused p)
include state unused

theorem parse_udp_ports (few : k < 4) (inside : first+(4+k) ≤ body.length) : parse (body.take (first+(4+k))) =
      {ported p body first with byteCntReg := 4+k, isPTPFrameReg := decide (1 ≤ k) && bothPorts (ported p body first)} := by
  induction k with
  | zero =>
    have small : 3+1 < 2^11 := by decide
    have more : 3+1 ≠ 8 := by decide
    have low : (bufferAt body (first+4)).extractLsb' 0 16 = half body (first+2) := half_at inside
    have upper : (bufferAt body (first+4)).extractLsb' 16 16 = half body first := upper_at inside
    refine parse_step (k := first+3) (parse_udp entered zero unclear state unused (by decide) (by omega)) inside
      (feed_settles ?_ (.udp state unclear small more (fun _ => ⟨upper.symm,low.symm⟩) (absurd rfl)))
    rw [bump_eq small,next_ports _ _ _ upper low]
    · simp [ported,unused.ptp]
    · exact state
    · rfl
    · exact unclear
  | succ k ih =>
    have small : 4+k+1 < 2^11 := by omega
    have more : 4+k+1 ≠ 8 := by omega
    have past : 4+k+1 ≠ 4 := by omega
    refine parse_step (k := first+(4+k)) (ih (by omega) (by omega)) inside
      (feed_settles ?_ (.udp state unclear small more (fun now => absurd now past) fun _ left right => ?_))
    · rw [bump_eq small,next_marks]
      · simp [bothPorts]
        rfl
      · exact state
      · exact past
      · exact more
      · exact unclear
    · simp [bothPorts,left,right]

theorem parse_udp_end (other : (isPTPPort (half body first) && isPTPPort (half body (first+2))) = false) (inside : first+8 ≤ body.length) :
    Ended (parse (body.take (first+8))) := by
  have before := parse_udp_ports entered zero unclear state unused (k := 3) (by decide) (by omega)
  rw [parse_step (k := first+7) before inside rfl]
  apply feed_ends
  have small : 7+1 < 2^11 := by decide
  rw [bump_eq small]
  exact next_udp_end state rfl (by simpa [bothPorts,ported] using other)

theorem parse_udp_ptp (both : (isPTPPort (half body first) && isPTPPort (half body (first+2))) = true) (inside : first+8 ≤ body.length) :
    parse (body.take (first+8)) =
      {ported p body first with stateReg := .stPTPhead, byteCntReg := 0, isPTPFrameReg := true} := by
  have before := parse_udp_ports entered zero unclear state unused (k := 3) (by decide) (by omega)
  have none : 0 < 2^11 := Nat.two_pow_pos 11
  have marked : (decide (1 ≤ 3) && bothPorts (ported p body first)) = true := by simpa [bothPorts,ported] using both
  rw [marked] at before
  refine parse_step (k := first+7) before inside (feed_settles ?_ (.ptp rfl unclear none (by simp) (headDue_early (by simp))))
  exact next_ptp state rfl unclear rfl
end

theorem parse_ptp (state : p.stateReg = .stPTPhead) (few : k+1 < ptpLength (octet body first))
    (inside : first+(k+1) ≤ body.length) :
    parse (body.take (first+(k+1))) = {p with byteCntReg := k+1, ptpMsgTypeReg := octet body first} := by
  induction k with
  | zero =>
    have now : 0+1 < 2^11 := Nat.one_lt_two_pow (by decide)
    have byte := byte_at inside
    refine parse_step entered inside (feed_settles ?_ (.ptp state unclear now (fun _ => byte.symm) ?_))
    · rw [bump_eq (by rw [zero]; exact now),zero]
      exact next_message state rfl unclear byte
    · simp [headDue]
  | succ k ih =>
    have small : k+1+1 < 2^11 := by
      have short := (ptpLength_le (octet body first)).2
      omega
    refine parse_step (k := first+(k+1)) (ih (by omega) (by omega)) inside ?_
    refine feed_counts small (.ptp state unclear small (by simp) ?_)
    rintro (⟨request,count⟩ | ⟨other,count⟩)
    · simp only at request count
      rw [ptpLength,if_pos request] at few
      omega
    · simp only at other count
      rw [ptpLength,if_neg other] at few
      omega

theorem parse_ptp_end (state : p.stateReg = .stPTPhead) (inside : first+ptpLength (octet body first) ≤ body.length) :
    Ended (parse (body.take (first+ptpLength (octet body first)))) := by
  obtain ⟨long,short⟩ := ptpLength_le (octet body first)
  obtain ⟨k,last⟩ : ∃ k, ptpLength (octet body first) = k+1+1 := ⟨ptpLength (octet body first)-2,by omega⟩
  have before := parse_ptp entered zero unclear state (k := k) (by omega) (by omega)
  rw [last] at inside ⊢
  rw [show first+(k+1+1) = first+(k+1)+1 from rfl,parse_step before inside rfl]
  apply feed_ends
  rw [bump_eq (by simp only; omega)]
  exact next_ptp_end state last.symm
end Header
end Phases

section
variable (body : List (BitVec 8))

-- A frame whose headers are all there, and two more bytes: with one a PCF frame can end before the parser.
structure Complete : Prop where
  known : ethType body ≠ 0
  single : isVLAN (ethType body) = false
  inside : base body+headerLength body+2 ≤ body.length

instance (body : List (BitVec 8)) : Decidable (Complete body) :=
  decidable_of_iff (ethType body ≠ 0 ∧ isVLAN (ethType body) = false ∧ base body+headerLength body+2 ≤ body.length)
    ⟨fun ⟨known,single,inside⟩ => ⟨known,single,inside⟩,fun complete => ⟨complete.known,complete.single,complete.inside⟩⟩

-- PTP in a UDP datagram in an IPv4 packet: the destination port tells.
def headerWords : Nat := ((octet body (base body)).extractLsb' 0 4).toNat
def udpBase : Nat := base body+4*headerWords body

def CarriesPtp : Prop :=
  ethType body = constIPv4t ∧ octet body (base body+9) = 17#8 ∧ isPTPPort (half body (udpBase body+2)) = true

-- The packet has no options and the source port is a PTP port, too.
def Plain : Prop := headerWords body = 5 ∧ isPTPPort (half body (udpBase body)) = true
end

instance (body : List (BitVec 8)) : Decidable (CarriesPtp body) := inferInstanceAs (Decidable (_ ∧ _ ∧ _))
instance (body : List (BitVec 8)) : Decidable (Plain body) := inferInstanceAs (Decidable (_ ∧ _))

section Frames
variable {body : List (BitVec 8)}

theorem typed_ip (ipv4 : ethType body = constIPv4t) : (typed body).stateReg = .stIPhead ∧ Unused (typed body) := by
  have other : isPTP (ethType body) = false := by rw [ipv4]; decide
  refine ⟨?_,rfl,rfl,other⟩
  show protocolState (ethType body) = _
  rw [protocolState,if_neg (by simp [other]),if_pos ipv4]

theorem typed_ended (other : isPTP (ethType body) = false) (unlike : ethType body ≠ constIPv4t) : Ended (typed body) := by
  have state : (typed body).stateReg = if ethType body = constPCFt then .stPCFHead else .stEOF := by
    show protocolState (ethType body) = _
    rw [protocolState,if_neg (by simp [other]),if_neg unlike]
  rw [Ended,state]
  split
  case isTrue => exact .inl rfl
  case isFalse => exact .inr rfl

section
variable (ipv4 : ethType body = constIPv4t) (udp : octet body (base body+9) = 17#8)
  (both : (isPTPPort (half body (base body+20)) && isPTPPort (half body (base body+22))) = true)
include ipv4 udp both

theorem headerLength_ptp : headerLength body = 28+ptpLength (octet body (base body+28)) := by
  have other : isPTP (ethType body) = false := by rw [ipv4]; decide
  rw [headerLength,if_neg (by simp [other]),if_pos ipv4,if_pos udp,if_pos both]

theorem parse_carries (known : ethType body ≠ 0) (single : isVLAN (ethType body) = false)
    (inside : base body+28 ≤ body.length) :
    ∃ p, parse (body.take (base body+28)) = p ∧ p.stateReg = .stPTPhead ∧ p.byteCntReg = 0 ∧ p.bufClrReg = false := by
  obtain ⟨state,unused⟩ := typed_ip ipv4
  have entered := parse_typed known single (by omega)
  have datagram := parse_ip_udp entered rfl rfl state unused rfl udp (by omega)
  have ptp : parse (body.take (base body+20+8)) = _ :=
    parse_udp_ptp datagram rfl rfl rfl ⟨unused.1,unused.2,unused.3⟩ both inside
  exact ⟨_,ptp,rfl,rfl,rfl⟩
end

theorem header_end (known : ethType body ≠ 0) (single : isVLAN (ethType body) = false)
    (inside : base body+headerLength body ≤ body.length) : Ended (parse (body.take (base body+headerLength body))) := by
  have entered := parse_typed known single (by omega)
  cases ptp : isPTP (ethType body) with
  | true =>
    have long : headerLength body = ptpLength (octet body (base body)) := by rw [headerLength,if_pos ptp]
    rw [long] at inside ⊢
    exact parse_ptp_end entered rfl rfl (by simp [typed,protocolState,ptp]) inside
  | false =>
    by_cases ipv4 : ethType body = constIPv4t
    · obtain ⟨state,unused⟩ := typed_ip ipv4
      by_cases udp : octet body (base body+9) = 17#8
      · cases both : isPTPPort (half body (base body+20)) && isPTPPort (half body (base body+22)) with
        | true =>
          rw [headerLength_ptp ipv4 udp both] at inside ⊢
          rw [← Nat.add_assoc] at inside ⊢
          obtain ⟨p,begun,state,zero,unclear⟩ := parse_carries ipv4 udp both known single (by omega)
          exact parse_ptp_end begun zero unclear state inside
        | false =>
          have long : headerLength body = 28 := by
            rw [headerLength,if_neg (by simp [ptp]),if_pos ipv4,if_pos udp,if_neg (by simp [both])]
          rw [long] at inside ⊢
          have datagram := parse_ip_udp entered rfl rfl state unused rfl udp (by omega)
          have final : Ended (parse (body.take (base body+20+8))) :=
            parse_udp_end datagram rfl rfl rfl ⟨unused.1,unused.2,unused.3⟩ both inside
          exact final
      · have long : headerLength body = 20 := by rw [headerLength,if_neg (by simp [ptp]),if_pos ipv4,if_neg udp]
        rw [long] at inside ⊢
        exact parse_ip_end entered rfl rfl state unused rfl udp inside
    · have none : headerLength body = 0 := by rw [headerLength,if_neg (by simp [ptp]),if_neg ipv4]
      rw [none,Nat.add_zero,entered]
      exact typed_ended ptp ipv4

theorem ended_dropLast (complete : Complete body) : Ended (parse body.dropLast.dropLast) := by
  have inside := complete.inside
  have split : body.dropLast.dropLast =
      body.take (base body+headerLength body) ++ (body.drop (base body+headerLength body)).dropLast.dropLast := by
    rw [List.dropLast_eq_take,List.dropLast_eq_take,List.dropLast_eq_take,List.dropLast_eq_take]
    simp only [List.length_take,List.length_drop,List.take_take]
    rw [← List.take_add]
    congr 1
    omega
  rw [split]
  exact parse_ended (header_end complete.known complete.single (by omega)) _

theorem carries_head (complete : Complete body) (carries : CarriesPtp body) (plain : Plain body) :
    ∃ k < body.length, (parse (body.take k)).stateReg = .stPTPhead := by
  obtain ⟨ipv4,udp,destination⟩ := carries
  obtain ⟨words,source⟩ := plain
  have start : udpBase body = base body+20 := by rw [udpBase,words]
  rw [start] at destination source
  have both : (isPTPPort (half body (base body+20)) && isPTPPort (half body (base body+22))) = true := by
    rw [source]
    exact destination
  have inside := complete.inside
  rw [headerLength_ptp ipv4 udp both] at inside
  obtain ⟨p,begun,state,-⟩ := parse_carries ipv4 udp both complete.known complete.single (by omega)
  exact ⟨base body+28,by omega,by rw [begun,state]⟩

-- A second tag: the parser waits for a type that never comes.
def Stuck (p : Parser) : Prop := p.stateReg = .stTypeEth ∧ p.isVLANFrameReg = true ∧ p.byteCntReg = 6

def Late (p : Parser) : Prop := p.stateReg ≠ .stCollectSFD ∧ p.stateReg ≠ .stDstMAC ∧ p.stateReg ≠ .stSrcMAC ∧ p.stateReg ≠ .stTypeEth

theorem next_late {p : Parser} (late : Late p) (regBuffer : BitVec 64) : Late (p.next regBuffer false true) := by
  obtain ⟨collect,dst,src,type⟩ := late
  unfold Late
  cases state : p.stateReg with
  | stCollectSFD => exact absurd state collect
  | stDstMAC => exact absurd state dst
  | stSrcMAC => exact absurd state src
  | stTypeEth => exact absurd state type
  | stIPhead => simp only [next,state,ipHead]; split <;> (try split) <;> (try split) <;> simp [counted,state]
  | stUDPhead => simp only [next,state,udpHead]; split <;> (try split) <;> (try split) <;> simp [counted,state]
  | stPTPhead => simp only [next,state,ptpHead]; split <;> (try split) <;> (try split) <;> simp [counted,state]
  | stPCFHead => simp [next,state]
  | stEOF => simp [next,state,eof]

theorem feed_late {p : Parser} (late : Late p) (regBuffer : BitVec 64) : Late (feed p regBuffer) :=
  next_late (next_late (p := bump p) late _) _

theorem typed_late (body : List (BitVec 8)) : Late (typed body) := by
  unfold Late typed protocolState
  split <;> (try split) <;> (try split) <;> simp

theorem parse_late (late : Late (parse (body.take k))) (inside : k+extra ≤ body.length) : Late (parse (body.take (k+extra))) := by
  induction extra with
  | zero => exact late
  | succ extra ih =>
    rw [← Nat.add_assoc,parse_next (show k+extra < body.length from inside)]
    exact feed_late (ih (by omega)) _

theorem complete_unstuck (complete : Complete body) (inside : k ≤ body.length) : ¬Stuck (parse (body.take k)) := by
  obtain ⟨known,single,long⟩ := complete
  by_cases late : base body ≤ k
  · have typed := parse_typed known single (by omega)
    obtain ⟨extra,rfl⟩ := Nat.exists_eq_add_of_le late
    have past := parse_late (typed ▸ typed_late body) inside
    exact fun stuck => past.2.2.2 stuck.1
  · intro ⟨state,tagged,count⟩
    by_cases dst : k < 6
    · rw [parse_dst dst inside] at state
      cases state
    · by_cases src : k < 12
      · obtain ⟨j,rfl⟩ := Nat.exists_eq_add_of_le (show 6 ≤ k by omega)
        rw [parse_src (by omega) inside] at state
        cases state
      · by_cases type : k < 14
        · obtain ⟨j,rfl⟩ := Nat.exists_eq_add_of_le (show 12 ≤ k by omega)
          rw [parse_type (by omega) inside] at tagged
          cases tagged
        · obtain ⟨j,rfl⟩ := Nat.exists_eq_add_of_le (show 14 ≤ k by omega)
          have tag : isVLAN (half body 12) = true := by
            by_contra untagged
            have near : offset body = 0 := by simp [offset,untagged]
            rw [base] at late
            omega
          have far : offset body = 4 := by simp [offset,tag]
          rw [base] at late
          rw [parse_tag tag (by omega) inside] at count
          simp only at count
          omega
end Frames
end Patmos.Mii
