import Patmos.RoundRobinArbiter
namespace Patmos
open List

structure OcpBurstBuffer (lanes : Nat) where
  mBuffer : Nat → OcpBurstMasterSignals lanes
  sBuffer : OcpBurstSlaveSignals lanes

namespace OcpBurstBuffer
open Transition RoundRobinArbiter

variable {lanes n : Nat}

section
variable (burstLength : Nat) (b : OcpBurstBuffer lanes)

def slaveM : OcpBurstMasterSignals lanes := b.mBuffer 0

def free : Bool := b.slaveM.cmd = .idle

def masterS : OcpBurstSlaveSignals lanes := {b.sBuffer with cmdAccept := b.free,dataAccept := b.free}

def next (master : OcpBurstMasterSignals lanes) (slave : OcpBurstSlaveSignals lanes) : OcpBurstBuffer lanes where
  mBuffer := if b.free ∨ slave.cmdAccept then shift burstLength b.mBuffer master else b.mBuffer
  sBuffer := slave

def offers (m : OcpBurstMasterSignals lanes) : Bool := m.cmd ≠ .idle ∨ m.dataValid

structure State (lanes : Nat) where
  buffer : OcpBurstBuffer lanes
  held : Option (OcpBurstMasterSignals lanes)

structure Cycle (lanes : Nat) where
  master : OcpBurstMasterSignals lanes
  slave : OcpBurstSlaveSignals lanes

-- A write command and its first beat are accepted together.
def system (burstLength lanes : Nat) : System (State lanes) (Cycle lanes) where
  start s := (∀ p, offers (s.buffer.mBuffer p) = false) ∧ s.held = none
  admits s x := (∀ m ∈ s.held, x.master = m) ∧ (s.buffer.slaveM.cmd = .wr → x.slave.dataAccept = x.slave.cmdAccept)
  next s x := {
    buffer := s.buffer.next burstLength x.master x.slave
    held := if offers x.master ∧ ¬s.buffer.free then some x.master else none }

def masterGives (s : State lanes) (x : Cycle lanes) : List (OcpBurstMasterSignals lanes) :=
  if s.buffer.masterS.cmdAccept then [x.master].filter offers else []

def slaveTakes (s : State lanes) (x : Cycle lanes) : List (OcpBurstMasterSignals lanes) :=
  if s.buffer.free then if s.buffer.slaveM.dataValid ∧ x.slave.dataAccept then [s.buffer.slaveM] else []
  else if x.slave.cmdAccept then [s.buffer.slaveM] else []

def inside (s : State lanes) : List (OcpBurstMasterSignals lanes) :=
  ((range burstLength).map s.buffer.mBuffer).filter offers

def response (s : OcpBurstSlaveSignals lanes) : OcpResp × Word lanes := (s.resp,s.data)

def Transparent (m : System (State lanes) (Cycle lanes)) : Prop :=
  ∀ s inputs, m.start s → m.Admits s inputs →
    m.record slaveTakes s inputs ++ inside burstLength (m.run s inputs) = m.record masterGives s inputs ∧
    ∀ x, m.record (fun s _ => [response s.buffer.masterS]) s (inputs ++ [x]) =
      response s.buffer.masterS :: inputs.map fun x => response x.slave
end

section
variable (s : State lanes) (x : Cycle lanes)

-- A beat at the head is taken at once, and nothing is offered while a command leaves.
def Prompt : Prop :=
  if s.buffer.free then s.buffer.slaveM.dataValid = true → x.slave.dataAccept = true
  else x.slave.cmdAccept = true → offers x.master = false

theorem inside_head :
    inside (n+1) s = [s.buffer.slaveM].filter offers ++ ((range n).map fun p => s.buffer.mBuffer (p+1)).filter offers := by
  rw [inside,range_succ_eq_map,map_cons,map_map,← filter_append]
  rfl

theorem inside_shifted (moves : s.buffer.free ∨ x.slave.cmdAccept) : inside (n+1) ((system (n+1) lanes).next s x) =
      ((range n).map fun p => s.buffer.mBuffer (p+1)).filter offers ++ [x.master].filter offers := by
  have buffer : ((system (n+1) lanes).next s x).buffer.mBuffer = shift (n+1) s.buffer.mBuffer x.master := if_pos moves
  have older : (range n).map (shift (n+1) s.buffer.mBuffer x.master) = (range n).map fun p => s.buffer.mBuffer (p+1) :=
    map_congr_left fun p inside => if_pos (Nat.succ_lt_succ (mem_range.mp inside))
  have last : shift (n+1) s.buffer.mBuffer x.master n = x.master := if_neg (lt_irrefl _)
  rw [inside,buffer,range_succ,map_append,filter_append,older,map_singleton,last]

theorem taken_flow (prompt : Prompt s x) :
    slaveTakes s x ++ inside (n+1) ((system (n+1) lanes).next s x) = inside (n+1) s ++ masterGives s x := by
  unfold Prompt at prompt
  unfold slaveTakes masterGives masterS
  cases free : s.buffer.free with
  | true =>
    have idle : s.buffer.slaveM.cmd = .idle := of_decide_eq_true free
    have head : offers s.buffer.slaveM = s.buffer.slaveM.dataValid := by simp [offers,idle]
    rw [inside_shifted s x (.inl free),inside_head]
    cases valid : s.buffer.slaveM.dataValid with
    | true =>
      have taken : x.slave.dataAccept = true := by simpa [free,valid] using prompt
      simp [head,valid,taken]
    | false => simp [head,valid]
  | false =>
    have busy : s.buffer.slaveM.cmd ≠ .idle := of_decide_eq_false free
    have head : offers s.buffer.slaveM = true := by simp [offers,busy]
    cases accepted : x.slave.cmdAccept with
    | true =>
      have nothing : offers x.master = false := by simpa [free,accepted] using prompt
      rw [inside_shifted s x (.inr accepted),inside_head]
      simp [head,nothing]
    | false =>
      have still : inside (n+1) ((system (n+1) lanes).next s x) = inside (n+1) s := by
        simp [inside,system,next,free,accepted]
      simp [still]
end

theorem buffer_transparent (n lanes : Nat) : Transparent (n+1) ((system (n+1) lanes).restrict Prompt) := by
  intro s inputs begun admitted
  refine ⟨?_,@System.record_register _ _ _ _ (fun s => response s.buffer.masterS) _ (fun _ _ => rfl) s inputs⟩
  have flow := (Reached.start begun).record_flow (fun s x _ admits => taken_flow s x admits.2) inputs admitted
  have empty : inside (n+1) s = [] := by simp [inside,begun.1]
  rw [flow,empty,nil_append]

-- The slave refuses the second beat of a write for one cycle.
def beat (cmd : OcpCmd) (value : BitVec 8) : OcpBurstMasterSignals 1 := ⟨cmd,0,fun _ => value,true,fun _ => true⟩
def refusal : List (Cycle 1) :=
  [⟨beat .wr 1,.quiet⟩,⟨beat .idle 2,.quiet⟩,⟨.quiet,.accept⟩,⟨.quiet,.quiet⟩]

def reset : State 1 := ⟨⟨fun _ => .quiet,.quiet⟩,none⟩

theorem beat_lost : ¬∀ n lanes,Transparent (n+1) (system (n+1) lanes) := by
  intro transparent
  have flow := (transparent 1 1 reset refusal ⟨fun _ => rfl,rfl⟩
    ⟨⟨nofun,by decide⟩,⟨nofun,by decide⟩,⟨nofun,by decide⟩,⟨nofun,by decide⟩,trivial⟩).1
  have lengths := congrArg length flow
  exact absurd lengths (by decide +kernel)
end OcpBurstBuffer
end Patmos
