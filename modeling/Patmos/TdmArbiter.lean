import Patmos.TransitionSystem
import Patmos.RegisterWidth
import Patmos.OrReduction
import Patmos.OcpBurstProtocol
namespace Patmos.TdmArbiter
open OcpBurst Transition Register Nat

structure Config where
  cnt : Nat
  burstLen : Nat
  ctrlDelay : Nat

namespace Config
def slotLen (c : Config) : Nat := c.burstLen + c.ctrlDelay + 1
def period (c : Config) : Nat := c.cnt * (c.burstLen + c.ctrlDelay + 1)
def numPipe : Nat := 3
def wrPipeDelay (c : Config) : Nat := c.burstLen + c.ctrlDelay + numPipe
def rdPipeDelay (c : Config) : Nat := c.burstLen + c.ctrlDelay + numPipe

structure Legal (c : Config) : Prop where
  nodes : 1 ≤ c.cnt
  burst : ∃ k, c.burstLen = 2^(k+1)
  delay : c.burstLen ≤ c.ctrlDelay
end Config

inductive FsmState where
  | sIdle
  | sRead
  | sWrite
  deriving DecidableEq, Repr

structure NodeTdmArbiter (c : Config) where
  cntReg : Nat
  burstCntReg : Nat
  wrCntReg : Nat
  rdCntReg : Nat
  cpuSlot : Fin c.cnt → Bool
  stateReg : FsmState

variable {c : Config} {lanes : Nat}

namespace NodeTdmArbiter
def reset : NodeTdmArbiter c := ⟨0,0,0,0,fun _ => false,.sIdle⟩

section
variable (n : NodeTdmArbiter c) (node : Fin c.cnt) (master : OcpBurstMasterSignals lanes) (slave : OcpSlaveSignals lanes)

-- The slot of the node comes up while it is idle and its master has a command.
def grants : Bool := n.stateReg = .sIdle ∧ n.cpuSlot node ∧ master.cmd ≠ .idle

def slaveM : OcpBurstMasterSignals lanes :=
  match n.stateReg with
  | .sIdle => if n.grants node master then master else .quiet
  | .sWrite => if c.burstLen-1 ≤ n.wrCntReg then .quiet else master
  | .sRead => if c.burstLen-1 ≤ n.rdCntReg then .quiet else master

def masterS : OcpBurstSlaveSignals lanes :=
  match n.stateReg with
  | .sIdle => ⟨.null,fun _ => 0,n.grants node master,n.grants node master && master.cmd = .wr⟩
  | .sWrite => ⟨if n.wrCntReg = 4 then .dva else .null,fun _ => 0,false,¬c.burstLen-1 ≤ n.wrCntReg⟩
  | .sRead => if c.ctrlDelay+Config.numPipe ≤ n.rdCntReg then ⟨slave.resp,slave.data,false,false⟩ else .quiet

def next : NodeTdmArbiter c where
  cntReg := if n.cntReg = c.period-1 then 0 else (n.cntReg+1) % 2^log2Up c.period
  cpuSlot i := n.cntReg = i*c.slotLen
  burstCntReg :=
    if n.stateReg = .sRead ∧ (n.masterS node master slave).resp = .dva then
      (n.burstCntReg+1) % 2^log2Up c.burstLen
    else n.burstCntReg
  wrCntReg :=
    match n.stateReg with
    | .sIdle => if n.grants node master ∧ master.cmd = .wr then 0 else n.wrCntReg
    | .sWrite => if n.wrCntReg = c.wrPipeDelay then 0 else (n.wrCntReg+1) % 2^log2Up c.wrPipeDelay
    | .sRead => n.wrCntReg
  rdCntReg :=
    match n.stateReg with
    | .sIdle => if n.grants node master ∧ master.cmd = .rd then 0 else n.rdCntReg
    | .sWrite => n.rdCntReg
    | .sRead => if n.rdCntReg = c.rdPipeDelay+c.burstLen then 0 else (n.rdCntReg+1) % 2^log2Up c.rdPipeDelay
  stateReg :=
    match n.stateReg with
    | .sIdle =>
      if n.grants node master then if master.cmd = .rd then .sRead else .sWrite else .sIdle
    | .sWrite => if (n.masterS node master slave).resp = .dva then .sIdle else .sWrite
    | .sRead =>
      if (n.masterS node master slave).resp = .dva ∧ n.burstCntReg = c.burstLen-1 then .sIdle else .sRead
end
end NodeTdmArbiter

-- The wires of a master port, on which MemMuxIntf works bit by bit.
structure Bundle (lanes : Nat) where
  cmd : BitVec 3
  addr : Nat
  data : Word lanes
  dataByteEn : ByteEn lanes
  dataValid : Bool

def code : OcpCmd → BitVec 3
  | .idle => 0
  | .wr => 1
  | .rd => 2

namespace Bundle
def zero : Bundle lanes := ⟨0,0,fun _ => 0,fun _ => false,false⟩

def or (a b : Bundle lanes) : Bundle lanes where
  cmd := a.cmd ||| b.cmd
  addr := a.addr ||| b.addr
  data i := a.data i ||| b.data i
  dataByteEn i := a.dataByteEn i || b.dataByteEn i
  dataValid := a.dataValid || b.dataValid

def encode (m : OcpBurstMasterSignals lanes) : Bundle lanes :=
  ⟨code m.cmd,m.addr,m.data,m.dataByteEn,m.dataValid⟩

def reduce (inputs : Fin n → Bundle lanes) : Bundle lanes := (List.ofFn inputs).foldl or zero

theorem or_joins : OrReduction.Joins (or : Bundle lanes → Bundle lanes → Bundle lanes) zero where
  left b := by
    cases b
    simp [or,zero]
  right b := by
    cases b
    simp [or,zero]
  same b := by
    cases b
    simp [or]

theorem reduce_single (inputs : Fin n → Bundle lanes) (i : Fin n) (others : ∀ j, j ≠ i → inputs j = zero) :
    reduce inputs = inputs i := by
  refine OrReduction.foldl_single or_joins _ _ _ (fun x member => ?_) (.inr ⟨rfl,by simp⟩)
  obtain ⟨j,rfl⟩ := (List.mem_ofFn' _ _).1 member
  by_cases same : j = i
  · exact .inr (by rw [same])
  · exact .inl (others j same)

theorem encode_quiet : encode (.quiet : OcpBurstMasterSignals lanes) = zero := rfl
end Bundle

structure MemMuxIntf (c : Config) (lanes : Nat) where
  mP1Reg : Fin c.cnt → Bundle lanes
  mP2Reg : Bundle lanes
  sP1Reg : OcpSlaveSignals lanes

def MemMuxIntf.next (x : MemMuxIntf c lanes) (master : Fin c.cnt → OcpBurstMasterSignals lanes)
    (slave : OcpSlaveSignals lanes) : MemMuxIntf c lanes where
  mP1Reg i := .encode (master i)
  mP2Reg := .reduce x.mP1Reg
  sP1Reg := slave

structure State (c : Config) (lanes : Nat) where
  node : Fin c.cnt → NodeTdmArbiter c
  memMux : MemMuxIntf c lanes
  master : Fin c.cnt → Phase

structure Cycle (c : Config) (lanes : Nat) where
  master : Fin c.cnt → OcpBurstMasterSignals lanes
  slave : OcpSlaveSignals lanes

def Cycle.driven (x : Cycle c lanes) (s : State c lanes) (i : Fin c.cnt) : OcpBurstMasterSignals lanes :=
  (s.node i).slaveM i (x.master i)

def Cycle.seen (x : Cycle c lanes) (s : State c lanes) (i : Fin c.cnt) : OcpBurstSlaveSignals lanes :=
  (s.node i).masterS i (x.master i) s.memMux.sP1Reg

-- Only the command registers of the multiplexer have a reset value.
def system (c : Config) (lanes : Nat) : System (State c lanes) (Cycle c lanes) where
  start s := (∀ i, s.node i = .reset ∧ s.master i = .idle ∧ (s.memMux.mP1Reg i).cmd = 0) ∧ s.memMux.mP2Reg.cmd = 0
  admits s x := ∀ i, (s.master i).Offers (x.master i)
  next s x := {
    node i := (s.node i).next i (x.master i) s.memMux.sP1Reg
    memMux := s.memMux.next (x.driven s) x.slave
    master i := (s.master i).next c.burstLen (x.master i) (x.seen s i) }

structure Run (c : Config) (lanes : Nat) where
  reset : State c lanes
  begun : (system c lanes).start reset
  input : Nat → Cycle c lanes

open NodeTdmArbiter

namespace Run
section
variable (r : Run c lanes) (t : Nat)

def state : State c lanes := (system c lanes).states r.reset r.input t
def master (r : Run c lanes) (t : Nat) (i : Fin c.cnt) : OcpBurstMasterSignals lanes := (r.input t).master i
def driven (r : Run c lanes) (t : Nat) (i : Fin c.cnt) : OcpBurstMasterSignals lanes := (r.input t).driven (r.state t) i
def seen (r : Run c lanes) (t : Nat) (i : Fin c.cnt) : OcpBurstSlaveSignals lanes := (r.input t).seen (r.state t) i
def port : Bundle lanes := (r.state t).memMux.mP2Reg

-- The memory puts out beat b of a read ctrlDelay+1+b cycles after the command has reached it. The two pipeline stages
-- before the memory and the one behind it make up the count at which the node starts to listen.
structure Conforming : Prop where
  masters : ∀ u ≤ t, (system c lanes).admits (r.state u) (r.input u)
  memory : ∀ u b, b < c.burstLen → u+c.ctrlDelay+1+b ≤ t → (r.port u).cmd = code .rd →
    (r.input (u+c.ctrlDelay+1+b)).slave.resp = .dva

def Issues (i : Fin c.cnt) (cmd : OcpCmd) : Prop :=
  ((r.state t).node i).grants i (r.master t i) = true ∧ (r.master t i).cmd = cmd
end

section
variable (r : Run c lanes) (t : Nat) (i : Fin c.cnt)

theorem node_succ : (r.state (t+1)).node i = ((r.state t).node i).next i (r.master t i) (r.state t).memMux.sP1Reg := rfl

theorem master_succ : (r.state (t+1)).master i = ((r.state t).master i).next c.burstLen (r.master t i) (r.seen t i) := rfl

theorem seen_eq : r.seen t i = ((r.state t).node i).masterS i (r.master t i) (r.state t).memMux.sP1Reg := rfl

theorem driven_eq : r.driven t i = ((r.state t).node i).slaveM i (r.master t i) := rfl
end

theorem port_later (r : Run c lanes) (t : Nat) : r.port (t+2) = .reduce fun i => .encode (r.driven t i) := rfl

theorem Issues.idle {r : Run c lanes} (issued : r.Issues t i cmd) :
    ((r.state t).node i).stateReg = .sIdle ∧ ((r.state t).node i).cpuSlot i = true ∧ cmd ≠ .idle := by
  obtain ⟨granted,rfl⟩ := issued
  simpa [grants] using granted

theorem Issues.driven {r : Run c lanes} (issued : r.Issues t i cmd) : r.driven t i = r.master t i := by
  simp [driven_eq,slaveM,issued.idle.1,issued.1]
end Run
open Run

variable {c : Config} {lanes : Nat} {r : Run c lanes}

-- Node i owns the cycles from one opening of its slot to the next opening.
def Config.Opens (c : Config) (i : Fin c.cnt) (t : Nat) : Prop := 0 < t ∧ (t-1) % c.period = i*c.slotLen

theorem opens_owner {i : Fin c.cnt} (opened : c.Opens i start) (begun : start ≤ t) (within : t < start+c.slotLen) :
    (t-1)/c.slotLen % c.cnt = i := by
  obtain ⟨positive,phase⟩ := opened
  have length : 0 < c.slotLen := Nat.succ_pos _
  obtain ⟨turn,divided⟩ : ∃ turn, start-1 = c.slotLen*(c.cnt*turn+i) := by
    refine ⟨(start-1)/c.period,?_⟩
    conv_lhs => rw [← Nat.div_add_mod (start-1) c.period,phase]
    rw [Nat.mul_add,show c.period = c.slotLen*c.cnt from Nat.mul_comm _ _,Nat.mul_assoc,Nat.mul_comm (i : Nat)]
  have slot : (t-1)/c.slotLen = c.cnt*turn+i := by
    rw [show t-1 = (t-start) + c.slotLen*(c.cnt*turn+i) by omega,Nat.add_mul_div_left _ _ length,
      Nat.div_eq_of_lt (by omega),Nat.zero_add]
  rw [slot,Nat.mul_add_mod,Nat.mod_eq_of_lt i.isLt]

theorem opens_exclusive {i j : Fin c.cnt} (left : c.Opens i a) (right : c.Opens j b)
    (leftBegun : a ≤ t) (leftWithin : t < a+c.slotLen) (rightBegun : b ≤ t) (rightWithin : t < b+c.slotLen) : i = j :=
  Fin.ext ((opens_owner left leftBegun leftWithin).symm.trans (opens_owner right rightBegun rightWithin))

theorem node_clock (legal : c.Legal) (r : Run c lanes) (t : Nat) (i : Fin c.cnt) :
    ((r.state t).node i).cntReg = t % c.period ∧
      ∀ j, ((r.state t).node i).cpuSlot j = true ↔ c.Opens j t := by
  induction t with
  | zero =>
    have reset : (r.state 0).node i = .reset := (r.begun.1 i).1
    rw [reset]
    exact ⟨rfl,fun j => ⟨fun opened => (by cases opened),fun opened => absurd opened.1 (lt_irrefl _)⟩⟩
  | succ t ih =>
    obtain ⟨count,_⟩ := ih
    have positive : 0 < c.period := Nat.mul_pos legal.nodes (Nat.succ_pos _)
    constructor
    · change (if ((r.state t).node i).cntReg = c.period-1 then 0
        else (((r.state t).node i).cntReg+1) % 2^log2Up c.period) = (t+1) % c.period
      rw [count]
      exact counter_next positive t
    · intro j
      change decide (((r.state t).node i).cntReg = j*c.slotLen) = true ↔ _
      rw [decide_eq_true_iff,count]
      exact ⟨fun opened => ⟨succ_pos _,opened⟩,fun opened => opened.2⟩

theorem issues_opens (legal : c.Legal) (issued : r.Issues t i cmd) : c.Opens i t :=
  ((node_clock legal r t i).2 i).1 issued.idle.2.1

theorem Config.Legal.several (legal : c.Legal) : 2 ≤ c.burstLen := by
  obtain ⟨k,power⟩ := legal.burst
  rw [power]
  exact le_self_pow (succ_ne_zero k) 2

theorem Config.burst_le_slot (c : Config) : c.burstLen ≤ c.slotLen := by
  simp only [Config.slotLen]
  omega

-- Where a burst stands some cycles after its command was accepted.
def writePhase (c : Config) (age : Nat) : Phase := if age < c.burstLen then .data (c.burstLen-age) else .response 1

structure Writing (r : Run c lanes) (i : Fin c.cnt) (start age : Nat) : Prop where
  state : ((r.state (start+age)).node i).stateReg = .sWrite
  count : ((r.state (start+age)).node i).wrCntReg+1 = age
  burst : ((r.state (start+age)).node i).burstCntReg = ((r.state start).node i).burstCntReg
  phase : (r.state (start+age)).master i = writePhase c age

structure Reading (r : Run c lanes) (i : Fin c.cnt) (start age : Nat) : Prop where
  state : ((r.state (start+age)).node i).stateReg = .sRead
  count : ((r.state (start+age)).node i).rdCntReg+1 = age
  burst : ((r.state (start+age)).node i).burstCntReg = age-(c.ctrlDelay+4)
  phase : (r.state (start+age)).master i = .response (c.burstLen-(age-(c.ctrlDelay+4)))

theorem afterBeat_left (left : Nat) : Phase.afterBeat left = if 0 < left then .data left else .response 1 := by
  cases left <;> rfl

theorem write_accepted (issued : r.Issues t i .wr)
    (waiting : Waiting ((r.state t).master i)) : Writing r i t 1 := by
  obtain ⟨idle,_,busy⟩ := issued.idle
  obtain ⟨granted,cmd⟩ := issued
  have seen : (r.seen t i).cmdAccept = true := by simp [seen_eq,masterS,idle,granted]
  refine ⟨?_,?_,?_,?_⟩
  · simp [node_succ,next,idle,granted,cmd]
  · simp [node_succ,next,idle,granted,cmd]
  · simp [node_succ,next,idle]
  · rw [master_succ,waiting_accepted c.burstLen waiting (cmd ▸ busy) seen,cmd,Phase.accepted,afterBeat_left]
    simp only [writePhase,Nat.sub_pos_iff_lt]

theorem Writing.seen (writing : Writing r i start age) : r.seen (start+age) i =
    ⟨if age = 5 then .dva else .null,fun _ => 0,false,age < c.burstLen⟩ := by
  have count := writing.count
  simp only [seen_eq,masterS,writing.state,OcpBurstSlaveSignals.mk.injEq,true_and]
  refine ⟨if_congr (by omega) rfl rfl,?_⟩
  simp only [decide_eq_decide]
  omega

theorem beat_driven (count : n+1 = age) (m : OcpBurstMasterSignals lanes) :
    (if c.burstLen-1 ≤ n then .quiet else m) = if age < c.burstLen then m else .quiet := by
  by_cases more : age < c.burstLen
  · rw [if_pos more,if_neg (by omega)]
  · rw [if_neg more,if_pos (by omega)]

theorem Writing.driven (writing : Writing r i start age) :
    r.driven (start+age) i = if age < c.burstLen then r.master (start+age) i else .quiet := by
  simp only [driven_eq,slaveM,writing.state]
  exact beat_driven writing.count _

theorem write_continues (legal : c.Legal) (writing : Writing r i start age) (early : age < 5) :
    Writing r i start (age+1) := by
  have longer : 7 ≤ c.wrPipeDelay := by
    have several := legal.several
    have delay := legal.delay
    simp only [Config.wrPipeDelay,Config.numPipe]
    omega
  have width := le_two_pow_log2Up c.wrPipeDelay
  have seen := writing.seen
  obtain ⟨state,count,burst,phase⟩ := writing
  refine ⟨?_,?_,?_,?_⟩
  · rw [← add_assoc,node_succ]
    simp [next,state,← seen_eq,seen,early.ne]
  · rw [← add_assoc,node_succ]
    simp only [next,state]
    rw [if_neg (by omega),mod_eq_of_lt (by omega),count]
  · rw [← add_assoc,node_succ,← burst]
    simp [next,state]
  · rw [← add_assoc,master_succ,phase,seen,writePhase,writePhase]
    by_cases more : age < c.burstLen
    · simp only [more,if_true,Phase.next,decide_true,afterBeat_left,Nat.sub_sub,Nat.sub_pos_iff_lt]
    · simp [more,Phase.next,early.ne,show ¬age+1 < c.burstLen by omega]

theorem write_run (legal : c.Legal) (issued : r.Issues t i .wr)
    (waiting : Waiting ((r.state t).master i)) (begun : 1 ≤ age) (early : age ≤ 5) : Writing r i t age := by
  induction age,begun using le_induction with
  | base => exact write_accepted issued waiting
  | succ age _ ih => exact write_continues legal (ih (by omega)) (by omega)

theorem read_accepted (issued : r.Issues t i .rd) (waiting : Waiting ((r.state t).master i))
    (fresh : ((r.state t).node i).burstCntReg = 0) : Reading r i t 1 := by
  obtain ⟨idle,_,busy⟩ := issued.idle
  obtain ⟨granted,cmd⟩ := issued
  have seen : (r.seen t i).cmdAccept = true := by simp [seen_eq,masterS,idle,granted]
  have early : 1-(c.ctrlDelay+4) = 0 := by omega
  refine ⟨?_,?_,?_,?_⟩
  · simp [node_succ,next,idle,granted,cmd]
  · simp [node_succ,next,idle,granted,cmd]
  · rw [node_succ]
    simp [next,idle,fresh]
  · rw [early,master_succ,waiting_accepted c.burstLen waiting (cmd ▸ busy) seen,cmd]
    rfl

theorem Reading.seen (reading : Reading r i start age)
    (answered : c.ctrlDelay+4 ≤ age → (r.input (start+age-1)).slave.resp = .dva) :
    r.seen (start+age) i =
      if c.ctrlDelay+4 ≤ age then ⟨.dva,(r.input (start+age-1)).slave.data,false,false⟩ else .quiet := by
  have count := reading.count
  have registered : (r.state (start+age)).memMux.sP1Reg = (r.input (start+age-1)).slave := by
    obtain ⟨before,rfl⟩ := Nat.exists_eq_add_of_le' (show 1 ≤ age by omega)
    rfl
  simp only [seen_eq,masterS,reading.state,registered,Config.numPipe]
  by_cases open' : c.ctrlDelay+4 ≤ age
  · rw [if_pos (by omega),if_pos open',answered open']
  · rw [if_neg (by omega),if_neg open']

theorem Reading.driven (reading : Reading r i start age) :
    r.driven (start+age) i = if age < c.burstLen then r.master (start+age) i else .quiet := by
  simp only [driven_eq,slaveM,reading.state]
  exact beat_driven reading.count _

theorem read_continues (legal : c.Legal) (reading : Reading r i start age) (early : age < c.slotLen+2)
    (answered : c.ctrlDelay+4 ≤ age → (r.input (start+age-1)).slave.resp = .dva) :
    Reading r i start (age+1) := by
  have width := le_two_pow_log2Up c.rdPipeDelay
  have burstWidth := le_two_pow_log2Up c.burstLen
  have several := legal.several
  have seen := reading.seen answered
  obtain ⟨state,count,burst,phase⟩ := reading
  simp only [Config.slotLen] at early
  have beats : age+1-(c.ctrlDelay+4) = if c.ctrlDelay+4 ≤ age then age-(c.ctrlDelay+4)+1 else age-(c.ctrlDelay+4) := by
    split <;> omega
  refine ⟨?_,?_,?_,?_⟩
  · rw [← add_assoc,node_succ]
    simp only [next,state]
    exact if_neg fun last => by omega
  · rw [← add_assoc,node_succ]
    simp only [next,state]
    have short : ((r.state (start+age)).node i).rdCntReg+1 < c.rdPipeDelay := by
      simp only [Config.rdPipeDelay,Config.numPipe]
      omega
    rw [if_neg (by omega),mod_eq_of_lt (by omega),count]
  · rw [← add_assoc,node_succ,beats]
    simp only [next,state,← seen_eq,seen,burst]
    split
    · simp
      rw [mod_eq_of_lt (by omega)]
    · simp [OcpBurstSlaveSignals.quiet]
  · rw [← add_assoc,master_succ,phase,seen,beats]
    split
    · simp only [Phase.next,reduceCtorEq,if_false]
      rw [if_neg (by omega),Nat.sub_sub]
    · simp [Phase.next,OcpBurstSlaveSignals.quiet]

structure Quiet (r : Run c lanes) (t : Nat) (i : Fin c.cnt) : Prop where
  state : ((r.state t).node i).stateReg = .sIdle
  burst : ((r.state t).node i).burstCntReg = 0
  phase : Waiting ((r.state t).master i)

theorem read_finishes (legal : c.Legal) (reading : Reading r i start (c.slotLen+2))
    (answered : (r.input (start+(c.slotLen+2)-1)).slave.resp = .dva) : Quiet r (start+(c.slotLen+2)+1) i := by
  have several := legal.several
  have seen := reading.seen fun _ => answered
  rw [if_pos (by simp only [Config.slotLen]; omega)] at seen
  obtain ⟨state,count,burst,phase⟩ := reading
  have last : c.slotLen+2-(c.ctrlDelay+4) = c.burstLen-1 := by
    simp only [Config.slotLen]
    omega
  rw [last] at burst phase
  refine ⟨?_,?_,?_⟩
  · rw [node_succ]
    simp [next,state,burst,← seen_eq,seen]
  · obtain ⟨k,power⟩ := legal.burst
    rw [node_succ]
    simp only [next,state,burst,← seen_eq,seen,and_self,if_true]
    rw [Nat.sub_add_cancel (by omega),power,log2Up_two_pow,Nat.mod_self]
  · rw [master_succ,phase,seen]
    simp only [Phase.next,reduceCtorEq,if_false]
    rw [if_pos (by omega)]
    exact .idle

theorem write_finishes (short : c.burstLen ≤ 4) (writing : Writing r i start 5)
    (fresh : ((r.state start).node i).burstCntReg = 0) : Quiet r (start+5+1) i := by
  have seen := writing.seen
  obtain ⟨state,count,burst,phase⟩ := writing
  refine ⟨?_,?_,?_⟩
  · rw [node_succ]
    simp [next,state,← seen_eq,seen]
  · rw [node_succ]
    simp [next,state,burst,fresh]
  · rw [master_succ,phase,seen,writePhase,if_neg (by omega)]
    exact .idle

theorem quiet_stays (quiet : Quiet r t i) (refused : ∀ cmd, ¬r.Issues t i cmd) : Quiet r (t+1) i := by
  obtain ⟨state,burst,phase⟩ := quiet
  have denied : ((r.state t).node i).grants i (r.master t i) = false := by
    simpa [Run.Issues] using refused (r.master t i).cmd
  have seen : (r.seen t i).cmdAccept = false := by
    simp [seen_eq,masterS,state,denied]
  refine ⟨?_,?_,?_⟩
  · simp [node_succ,next,state,denied]
  · simp [node_succ,next,state,burst]
  · exact waiting_next c.burstLen (r.master t i) phase seen

inductive Settled (r : Run c lanes) (i : Fin c.cnt) : Nat → Prop where
  | quiet : Quiet r t i → Settled r i t
  | reading : r.Issues start i .rd → 1 ≤ age → age ≤ c.slotLen+2 → Reading r i start age → Settled r i (start+age)
  | writing : r.Issues start i .wr → 1 ≤ age → age ≤ 5 → Writing r i start age → Settled r i (start+age)

theorem settled_quiet (settled : Settled r i t) (idle : ((r.state t).node i).stateReg = .sIdle) :
    Quiet r t i := by
  cases settled with
  | quiet quiet => exact quiet
  | reading _ _ _ burst | writing _ _ _ burst => exact absurd (idle.symm.trans burst.state) (by decide)

section
variable (legal : c.Legal)
include legal

theorem settled_drives (settled : Settled r i t) (drives : r.driven t i ≠ .quiet) :
    ∃ start, c.Opens i start ∧ start ≤ t ∧ t < start+c.burstLen := by
  have several := legal.several
  cases settled with
  | quiet idle =>
    have issued : r.Issues t i (r.master t i).cmd := by
      refine ⟨?_,rfl⟩
      by_contra refused
      exact drives (by simp [driven_eq,slaveM,idle.state,refused])
    exact ⟨t,issues_opens legal issued,le_rfl,by omega⟩
  | @reading start age issued _ _ burst | @writing start age issued _ _ burst =>
    refine ⟨start,issues_opens legal issued,le_add_right _ _,?_⟩
    by_contra late
    exact drives (by rw [burst.driven,if_neg (by omega)])

theorem settled_exclusive (settled : ∀ i, Settled r i t)
    (left : r.driven t i ≠ .quiet) (right : r.driven t j ≠ .quiet) : i = j := by
  obtain ⟨a,leftOpens,leftBegun,leftWithin⟩ := settled_drives legal (settled i) left
  obtain ⟨b,rightOpens,rightBegun,rightWithin⟩ := settled_drives legal (settled j) right
  have shorter := c.burst_le_slot
  exact opens_exclusive leftOpens rightOpens leftBegun (by omega) rightBegun (by omega)

theorem settled_port (settled : ∀ i, Settled r i t)
    (drives : r.driven t i ≠ .quiet) : r.port (t+2) = .encode (r.driven t i) := by
  rw [port_later]
  refine Bundle.reduce_single _ i fun j other => ?_
  have silent : r.driven t j = .quiet := by
    by_contra also
    exact other (settled_exclusive legal settled also drives)
  rw [silent,Bundle.encode_quiet]

theorem read_answered (conforming : r.Conforming t) (issued : r.Issues start i .rd)
    (settled : ∀ i, Settled r i start) (listening : c.ctrlDelay+4 ≤ age) (early : age ≤ c.slotLen+2)
    (within : start+age-1 ≤ t) : (r.input (start+age-1)).slave.resp = .dva := by
  have command : r.driven start i = r.master start i := issued.driven
  have drives : r.driven start i ≠ .quiet := by
    intro silent
    have cmd := issued.2
    rw [← command,silent] at cmd
    cases cmd
  have arrived : (r.port (start+2)).cmd = code .rd := by
    rw [settled_port legal settled drives,command]
    simp only [Bundle.encode,issued.2]
  obtain ⟨beat,rfl⟩ := Nat.exists_eq_add_of_le listening
  have time : start+(c.ctrlDelay+4+beat)-1 = start+2+c.ctrlDelay+1+beat := by omega
  rw [time] at within ⊢
  refine conforming.memory _ _ ?_ within arrived
  simp only [Config.slotLen] at early
  omega

theorem settled_next (short : c.burstLen ≤ 4) (conforming : r.Conforming t)
    (before : ∀ u ≤ t, ∀ i, Settled r i u) (i : Fin c.cnt) : Settled r i (t+1) := by
  cases before t le_rfl i with
  | quiet idle =>
    by_cases granted : ((r.state t).node i).grants i (r.master t i) = true
    · cases cmd : (r.master t i).cmd with
      | idle => exact absurd cmd (Run.Issues.idle ⟨granted,rfl⟩).2.2
      | rd => exact .reading ⟨granted,cmd⟩ le_rfl (by omega) (read_accepted ⟨granted,cmd⟩ idle.phase idle.burst)
      | wr => exact .writing ⟨granted,cmd⟩ le_rfl (by omega) (write_accepted ⟨granted,cmd⟩ idle.phase)
    · exact .quiet (quiet_stays idle fun _ issued => granted issued.1)
  | @reading start age issued begun early burst =>
    have answered (listening : c.ctrlDelay+4 ≤ age) : (r.input (start+age-1)).slave.resp = .dva :=
      read_answered legal conforming issued (before start (by omega)) listening early (by omega)
    by_cases last : age = c.slotLen+2
    · subst last
      refine .quiet (read_finishes legal burst (answered ?_))
      have several := legal.several
      simp only [Config.slotLen]
      omega
    · rw [add_assoc]
      exact .reading issued (le_succ_of_le begun) (by omega) (read_continues legal burst (by omega) answered)
  | @writing start age issued begun early burst =>
    by_cases last : age = 5
    · subst last
      have fresh := (settled_quiet (before start (by omega) i) issued.idle.1).burst
      exact .quiet (write_finishes short burst fresh)
    · rw [add_assoc]
      exact .writing issued (le_succ_of_le begun) (by omega) (write_continues legal burst (by omega))

theorem conforming_settled (short : c.burstLen ≤ 4) (conforming : r.Conforming t) : ∀ u ≤ t, ∀ i, Settled r i u := by
  intro u
  induction u using Nat.strong_induction_on with
  | _ u ih =>
    intro within i
    cases u with
    | zero =>
      obtain ⟨reset,idle,_⟩ := r.begun.1 i
      have node : (r.state 0).node i = .reset := reset
      exact .quiet ⟨by rw [node]; rfl,by rw [node]; rfl,by rw [show (r.state 0).master i = .idle from idle]; exact .idle⟩
    | succ u =>
      have prior : r.Conforming u := ⟨fun v earlier => conforming.masters v (by omega),
        fun v beat fits earlier => conforming.memory v beat fits (by omega)⟩
      exact settled_next legal short prior (fun v earlier => ih v (by omega) (by omega)) i
end

-- The ports at one cycle of a run. A beat of a read is what the memory puts out at that beat's latency, and it goes to
-- the master of the issuing node.
structure Correct (r : Run c lanes) (t : Nat) : Prop where
  exclusive : ∀ i j, r.driven t i ≠ .quiet → r.driven t j ≠ .quiet → i = j
  combined : ∀ i, r.driven t i ≠ .quiet → r.port (t+2) = .encode (r.driven t i)
  silent : (∀ i, r.driven t i = .quiet) → r.port (t+2) = .zero
  written : ∀ i, ((r.state t).node i).stateReg = .sWrite → (r.seen t i).resp ≠ .null →
    ∃ start, r.Issues start i .wr ∧ ∀ b < c.burstLen, start+b < t ∧ r.driven (start+b) i = r.master (start+b) i ∧
      (r.master (start+b) i).dataValid = true ∧ (r.seen (start+b) i).dataAccept = true
  listened : ∀ i, ((r.state t).node i).stateReg ≠ .sWrite → (r.seen t i).resp ≠ .null →
    ∃ start, r.Issues start i .rd ∧ ∃ b < c.burstLen, t = start+c.ctrlDelay+4+b
  returned : ∀ i start b, r.Issues start i .rd → b < c.burstLen → t = start+c.ctrlDelay+4+b →
    (r.seen t i).resp = .dva ∧ (r.seen t i).data = (r.input (start+2+c.ctrlDelay+1+b)).slave.data ∧
      ∀ j, j ≠ i → ((r.state t).node j).stateReg ≠ .sWrite → (r.seen t j).resp = .null

section
variable (legal : c.Legal) (short : c.burstLen ≤ 4) (conforming : r.Conforming t)
include legal short conforming

theorem settled_written (writing : ((r.state t).node i).stateReg = .sWrite) (resp : (r.seen t i).resp ≠ .null) :
    ∃ start, r.Issues start i .wr ∧ ∀ b < c.burstLen, start+b < t ∧ r.driven (start+b) i = r.master (start+b) i ∧
      (r.master (start+b) i).dataValid = true ∧ (r.seen (start+b) i).dataAccept = true := by
  have settled := conforming_settled legal short conforming
  cases settled t le_rfl i with
  | quiet quiet => exact absurd (writing.symm.trans quiet.state) (by decide)
  | reading _ _ _ burst => exact absurd (writing.symm.trans burst.state) (by decide)
  | @writing start age issued begun early burst =>
    have last : age = 5 := by
      by_contra waits
      rw [burst.seen,if_neg waits] at resp
      exact resp rfl
    have quiet := settled_quiet (settled start (by omega) i) issued.idle.1
    refine ⟨start,issued,fun b fits => ⟨by omega,?_⟩⟩
    have offers := conforming.masters (start+b) (by omega) i
    cases b with
    | zero =>
      have first := (waiting_presents c.burstLen quiet.phase offers .quiet).1.2 issued.2
      refine ⟨issued.driven,first,?_⟩
      simp [seen_eq,masterS,issued.idle.1,issued.1,issued.2]
    | succ b =>
      have beat := write_run legal issued quiet.phase (succ_pos b) (by omega)
      rw [beat.phase,writePhase,if_pos fits] at offers
      exact ⟨by rw [beat.driven,if_pos fits],offers.2,by rw [beat.seen]; exact decide_eq_true fits⟩

theorem settled_listened (other : ((r.state t).node i).stateReg ≠ .sWrite) (resp : (r.seen t i).resp ≠ .null) :
    ∃ start, r.Issues start i .rd ∧ ∃ b < c.burstLen, t = start+c.ctrlDelay+4+b := by
  cases conforming_settled legal short conforming t le_rfl i with
  | quiet quiet => exact absurd (by simp [seen_eq,masterS,quiet.state]) resp
  | writing _ _ _ burst => exact absurd burst.state other
  | @reading start age issued begun early burst =>
    have listening : c.ctrlDelay+4 ≤ age := by
      by_contra before
      rw [burst.seen fun listening => absurd listening before,if_neg before] at resp
      exact resp rfl
    simp only [Config.slotLen] at early
    exact ⟨start,issued,age-(c.ctrlDelay+4),by omega,by omega⟩

theorem read_run (issued : r.Issues start i .rd) (begun : 1 ≤ age) (early : age ≤ c.slotLen+2) (within : start+age ≤ t) :
    Reading r i start age := by
  have settled := conforming_settled legal short conforming
  induction age,begun using le_induction with
  | base =>
    have quiet := settled_quiet (settled start (by omega) i) issued.idle.1
    exact read_accepted issued quiet.phase quiet.burst
  | succ age begun ih =>
    refine read_continues legal (ih (by omega) (by omega)) (by omega) fun listening => ?_
    exact read_answered legal conforming issued (settled start (by omega)) listening (by omega) (by omega)

theorem settled_returned (issued : r.Issues start i .rd) (fits : b < c.burstLen) (time : t = start+c.ctrlDelay+4+b) :
    (r.seen t i).resp = .dva ∧ (r.seen t i).data = (r.input (start+2+c.ctrlDelay+1+b)).slave.data ∧
      ∀ j, j ≠ i → ((r.state t).node j).stateReg ≠ .sWrite → (r.seen t j).resp = .null := by
  have settled := conforming_settled legal short conforming
  have shorter := c.burst_le_slot
  have early : c.ctrlDelay+4+b ≤ c.slotLen+2 := by
    simp only [Config.slotLen]
    omega
  have seen : r.seen t i = ⟨.dva,(r.input (start+2+c.ctrlDelay+1+b)).slave.data,false,false⟩ := by
    have burst := read_run legal short conforming issued (succ_pos (c.ctrlDelay+3+b)) (by omega) (by omega)
    have answered := burst.seen fun listening =>
      read_answered legal conforming issued (settled start (by omega)) listening (by omega) (by omega)
    rw [if_pos (by omega)] at answered
    rw [show t = start+(c.ctrlDelay+3+b).succ by omega,answered]
    congr 4
    omega
  refine ⟨by rw [seen],by rw [seen],fun j other listens => ?_⟩
  by_contra resp
  obtain ⟨begun,also,b',fits',time'⟩ := settled_listened legal short conforming listens resp
  exact other (opens_exclusive (issues_opens legal also) (issues_opens legal issued)
    (show begun ≤ start+b by omega) (by omega) (le_add_right start b) (by omega))
end

theorem short_correct (legal : c.Legal) (short : c.burstLen ≤ 4) (r : Run c lanes) (t : Nat)
    (conforming : r.Conforming t) : Correct r t where
  exclusive _ _ := settled_exclusive legal (conforming_settled legal short conforming t le_rfl)
  combined _ := settled_port legal (conforming_settled legal short conforming t le_rfl)
  silent quiet := by
    rw [port_later]
    simp only [quiet]
    exact Bundle.reduce_single _ ⟨0,legal.nodes⟩ fun _ _ => rfl
  written _ := settled_written legal short conforming
  listened _ := settled_listened legal short conforming
  returned _ _ _ := settled_returned legal short conforming

def writer (legal : c.Legal) (lanes : Nat) : Run c lanes where
  reset := ⟨fun _ => .reset,⟨fun _ => .zero,.zero,⟨.null,fun _ => 0⟩⟩,fun _ => .idle⟩
  begun := ⟨fun _ => ⟨rfl,rfl,rfl⟩,rfl⟩
  input t := {
    master i := if i = ⟨0,legal.nodes⟩ then {OcpBurstMasterSignals.quiet with
      cmd := if t = 1 then .wr else .idle,dataValid := true} else .quiet
    slave := ⟨.null,fun _ => 0⟩ }

section
variable (legal : c.Legal)

theorem writer_other (other : i ≠ ⟨0,legal.nodes⟩) (t : Nat) : ((writer legal lanes).state t).master i = .idle := by
  induction t with
  | zero => rfl
  | succ t ih =>
    rw [master_succ,ih]
    exact waiting_quiet c.burstLen .idle (by simp [master,writer,other,OcpBurstMasterSignals.quiet]) _

theorem writer_master (t : Nat) : (writer legal lanes).master t ⟨0,legal.nodes⟩ =
    {OcpBurstMasterSignals.quiet with cmd := if t = 1 then .wr else .idle,dataValid := true} := by
  simp [master,writer]

theorem writer_issues : (writer legal lanes).Issues 1 ⟨0,legal.nodes⟩ .wr ∧
    ((writer legal lanes).state 1).master ⟨0,legal.nodes⟩ = .idle := by
  have opens : c.Opens ⟨0,legal.nodes⟩ 1 := ⟨one_pos,by simp⟩
  have slot := ((node_clock legal (writer legal lanes) 1 ⟨0,legal.nodes⟩).2 ⟨0,legal.nodes⟩).2 opens
  refine ⟨⟨?_,by rw [writer_master]; rfl⟩,?_⟩
  · simp only [grants,slot,writer_master,decide_eq_true_eq]
    exact ⟨rfl,trivial,by decide⟩
  · rw [master_succ]
    exact waiting_quiet c.burstLen .idle (by rw [writer_master]; rfl) _

theorem writer_writing (begun : 1 ≤ age) (early : age ≤ 5) : Writing (writer legal lanes) ⟨0,legal.nodes⟩ 1 age := by
  obtain ⟨issued,idle⟩ := @writer_issues c lanes legal
  exact write_run legal issued (idle ▸ .idle) begun early

theorem writer_conforming (long : 8 ≤ c.burstLen) : (writer legal lanes).Conforming 6 := by
  refine ⟨fun u within i => ?_,fun u b _ late _ => ?_⟩
  · by_cases first : i = ⟨0,legal.nodes⟩
    · subst first
      match u,within with
      | 0,_ => exact fun _ => rfl
      | 1,_ =>
        exact fun _ => rfl
      | age+2,within =>
        rw [show age+2 = 1+(age+1) by omega,(writer_writing legal (succ_pos age) (by omega)).phase,writePhase,
          if_pos (by omega)]
        exact ⟨if_neg (by omega),rfl⟩
    · rw [writer_other legal first]
      intro write
      simp [writer,first,OcpBurstMasterSignals.quiet] at write
  · have delay := legal.delay
    omega

-- The response to a write is given at a literal count of 4, in the sixth cycle of the burst, however many beats are
-- still to come.
theorem writer_early (long : 8 ≤ c.burstLen) : ¬Correct (writer legal lanes) 6 := by
  intro correct
  have last := @writer_writing c lanes legal _ (by decide) (le_refl 5)
  obtain ⟨start,_,beats⟩ := correct.written ⟨0,legal.nodes⟩ last.state (by simp [last.seen])
  have late := (beats 7 (by omega)).1
  omega
end

theorem tdm_correct_iff (c : Config) (lanes : Nat) (legal : c.Legal) :
    (∀ (r : Run c lanes) t, r.Conforming t → Correct r t) ↔ c.burstLen ≤ 4 := by
  constructor
  · intro correct
    by_contra more
    have long : 8 ≤ c.burstLen := by
      obtain ⟨k,power⟩ := legal.burst
      rw [power] at more ⊢
      match k with
      | 0 | 1 => exact absurd (by decide) more
      | k+2 => exact Nat.pow_le_pow_right Nat.two_pos (show 3 ≤ k+2+1 by omega)
    exact writer_early legal long (correct _ _ (writer_conforming legal long))
  · exact short_correct legal

theorem tdm_correct_three_nodes : Config.Legal ⟨3,4,16⟩ ∧
    ∀ (r : Run ⟨3,4,16⟩ 4) t, r.Conforming t → Correct r t := by
  have legal : Config.Legal ⟨3,4,16⟩ := ⟨by decide,⟨1,rfl⟩,by decide⟩
  exact ⟨legal,(tdm_correct_iff _ 4 legal).2 (by decide)⟩

theorem eight_beats_answered_early :
    ¬∀ c : Config, c.Legal → ∀ (r : Run c 4) t, r.Conforming t → Correct r t := by
  intro correct
  have legal : Config.Legal ⟨2,8,16⟩ := ⟨by decide,⟨2,rfl⟩,by decide⟩
  exact writer_early legal (le_refl 8) (correct _ legal _ _ (writer_conforming legal (le_refl 8)))
end Patmos.TdmArbiter
