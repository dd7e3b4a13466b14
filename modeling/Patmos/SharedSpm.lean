import Patmos.Caspm
import Patmos.OrReduction
import Patmos.PortHistory
namespace Patmos
open Transition Register PortHistory List

-- The wires of a core port, which are joined bit by bit.
structure OcpCoreWires where
  cmd : BitVec 3
  addr : Nat
  data : Word 4
  byteEn : ByteEn 4

namespace OcpCoreWires
def code : OcpCmd → BitVec 3
  | .idle => 0
  | .wr => 1
  | .rd => 2

-- A memory compares the command with WR and with RD only.
def decode (cmd : BitVec 3) : OcpCmd := if cmd = 1 then .wr else if cmd = 2 then .rd else .idle

def zero : OcpCoreWires := ⟨0,0,fun _ => 0,fun _ => false⟩

def or (a b : OcpCoreWires) : OcpCoreWires where
  cmd := a.cmd ||| b.cmd
  addr := a.addr ||| b.addr
  data i := a.data i ||| b.data i
  byteEn i := a.byteEn i || b.byteEn i

def drive (m : OcpCoreMasterSignals 4) : OcpCoreWires := ⟨code m.cmd,m.addr,m.data,m.byteEn⟩
def sense (w : OcpCoreWires) : OcpCoreMasterSignals 4 := ⟨decode w.cmd,w.addr,w.data,w.byteEn⟩

theorem sense_drive (m : OcpCoreMasterSignals 4) : (drive m).sense = m := by
  obtain ⟨cmd,_,_,_⟩ := m
  cases cmd <;> rfl

theorem or_joins : OrReduction.Joins or zero where
  left w := by simp [or,zero]
  right w := by simp [or,zero]
  same w := by simp [or]
end OcpCoreWires

namespace Spm
-- A memory of size 0 has no blocks and answers 0.
def data (size : Nat) (p : Spm) : Word 4 := if 0 < size then p.rdData else fun _ => 0
end Spm

inductive NodeState where
  | idle
  | rd
  | wr
  deriving DecidableEq, Repr

-- respReg is the register behind dvaRepl.
structure NodeSpm where
  state : NodeState
  cnt : Nat
  masterReg : OcpCoreMasterSignals 4
  respReg : OcpResp

namespace NodeSpm
def enable (id : Nat) (n : NodeSpm) : Bool := n.cnt = id

def dvaRepl (id : Nat) (n : NodeSpm) : OcpResp :=
  match n.state with
  | .idle => .null
  | .rd => if n.enable id then .dva else .null
  | .wr => if n.enable id then .dva else .null

def next (nrCores id : Nat) (n : NodeSpm) (m : OcpCoreMasterSignals 4) : NodeSpm where
  state :=
    match n.state with
    | .idle => if m.cmd = .wr then .wr else if m.cmd = .rd then .rd else .idle
    | .rd => if n.enable id then .idle else .rd
    | .wr => if n.enable id then .idle else .wr
  cnt := if n.cnt = nrCores-1 then 0 else (n.cnt+1) % 2^log2Up nrCores
  masterReg :=
    match n.state with
    | .idle => if m.cmd = .wr ∨ m.cmd = .rd then m else n.masterReg
    | .rd => if n.enable id then {n.masterReg with cmd := .idle} else n.masterReg
    | .wr => if n.enable id then {n.masterReg with cmd := .idle} else n.masterReg
  respReg := n.dvaRepl id

def toMem (id : Nat) (n : NodeSpm) : OcpCoreWires := if n.enable id then .drive n.masterReg else .zero
end NodeSpm

structure SharedSpm (cores : Nat) where
  nd : Fin (cores+1) → NodeSpm
  spm : Spm

namespace SharedSpm
variable {cores : Nat}

def spmM (d : SharedSpm cores) : OcpCoreWires :=
  ((finRange (cores+1)).map fun i => (d.nd i).toMem i).foldl .or .zero

-- The address port of the memory has the bits of a byte address.
def memM (size : Nat) (m : OcpCoreMasterSignals 4) : OcpCoreMasterSignals 4 := {m with addr := m.addr % 2^log2Up size}

def next (size : Nat) (d : SharedSpm cores) (m : Fin (cores+1) → OcpCoreMasterSignals 4) (undefined : Word 4) :
    SharedSpm cores where
  nd i := (d.nd i).next (cores+1) i (m i)
  spm := d.spm.next size (memM size d.spmM.sense) undefined

def coreS (size : Nat) (d : SharedSpm cores) (i : Fin (cores+1)) : OcpSlaveSignals 4 := ⟨(d.nd i).respReg,d.spm.data size⟩

def drives (d : SharedSpm cores) (i : Fin (cores+1)) : Bool := ((d.nd i).toMem i).cmd ≠ 0
end SharedSpm

namespace SharedMemory
variable {cores size : Nat}

abbrev Cell := Nat × Fin 4

-- A command writes the enabled bytes of the word that its address selects.
def writesTo (word : OcpCoreMasterSignals 4 → Nat) (m : OcpCoreMasterSignals 4) : List (Cell × BitVec 8) :=
  ((finRange 4).filter (Spm.stmsk m)).map fun b => ((word m,b),m.data b)

section
variable (size : Nat) (d : SharedSpm cores)

def word (m : OcpCoreMasterSignals 4) : Nat := Spm.index size (SharedSpm.memM size m).addr

def writes (m : OcpCoreMasterSignals 4) : List (Cell × BitVec 8) := writesTo (word size) m

def Gives (m : OcpCoreMasterSignals 4) (result : Word 4) (mem : Cell → BitVec 8) : Prop :=
  m.cmd = .rd → word size m < size/4 → ∀ b, result b = mem (word size m,b)

def waiting (i : Fin (cores+1)) : Option (OcpCoreMasterSignals 4) :=
  if (d.nd i).state = .idle then none else some (d.nd i).masterReg

def answering (i : Fin (cores+1)) : Option (Word 4) :=
  if (d.coreS size i).resp = .dva then some (d.coreS size i).data else none

def issued (m : ι → OcpCoreMasterSignals 4) (i : ι) : Option (OcpCoreMasterSignals 4) :=
  if (m i).cmd = .idle then none else some (m i)

structure State (cores : Nat) where
  device : SharedSpm cores
  ports : Ports (Fin (cores+1)) (OcpCoreMasterSignals 4) (Word 4)
  origin : Cell → BitVec 8

structure Cycle (cores : Nat) where
  m : Fin (cores+1) → OcpCoreMasterSignals 4
  undefined : Word 4

-- What reaches the memory, with the data that it shows in the next cycle.
def reaches (x : Cycle cores) : List (Access (Fin (cores+1)) (OcpCoreMasterSignals 4) (Word 4)) :=
  (finRange (cores+1)).flatMap fun i =>
    if d.drives i then [⟨i,d.spmM.sense,(d.next size x.m x.undefined).spm.data size⟩] else []

def system (cores size : Nat) : System (State cores) (Cycle cores) where
  start s := (∀ i, (s.device.nd i).state = .idle ∧ (s.device.nd i).cnt = 0 ∧ (s.device.nd i).masterReg.cmd = .idle ∧
      (s.device.nd i).respReg = .null) ∧
    s.ports = .empty ∧ ∀ cell, s.origin cell = s.device.spm.mem cell.1 cell.2
  admits s x := ∀ i, (x.m i).cmd ≠ .idle → s.ports.Ready (answering size s.device) i
  next s x := {
    device := s.device.next size x.m x.undefined
    ports := s.ports.next (issued x.m) (reaches size s.device x) (answering size s.device)
    origin := s.origin }

abbrev State.after (size : Nat) (s : State cores) (x : Cycle cores) := (system cores size).next s x

def log (s : State cores) : List (Cell × BitVec 8) := s.ports.history.flatMap fun a => writes size a.command

structure Linearizable (s : State cores) : Prop where
  exclusive : ∀ i j, s.device.drives i = true → s.device.drives j = true → i = j
  orderly : s.ports.Orderly (waiting s.device) (answering size s.device)
  sequential : Sequential (writes size) (Gives size) s.origin s.ports.history

def NodeState.command : NodeState → OcpCmd
  | .idle => .idle
  | .rd => .rd
  | .wr => .wr

-- All counters agree, and a node holds a command while it waits for its slot.
structure Valid (s : State cores) : Prop where
  slot : ∃ k : Fin (cores+1), ∀ i, (s.device.nd i).cnt = k
  held : ∀ i, (s.device.nd i).masterReg.cmd = NodeState.command (s.device.nd i).state
  orderly : s.ports.Orderly (waiting s.device) (answering size s.device)
  memory : ∀ cell, s.device.spm.mem cell.1 cell.2 = latest s.origin (log size s) cell
  sequential : Sequential (writes size) (Gives size) s.origin s.ports.history
end

section Slot
variable {d : SharedSpm cores} {k : Fin (cores+1)} {i : Fin (cores+1)} {x : Cycle cores}

section
variable (slot : ∀ i, (d.nd i).cnt = k)
include slot

theorem enable_iff (i : Fin (cores+1)) : (d.nd i).enable i = true ↔ i = k := by
  rw [NodeSpm.enable,decide_eq_true_iff,slot,Fin.ext_iff]
  exact eq_comm

theorem spmM_turn : d.spmM = .drive (d.nd k).masterReg := by
  have turn : (d.nd k).toMem k = .drive (d.nd k).masterReg := if_pos ((enable_iff slot k).mpr rfl)
  refine OrReduction.foldl_single OcpCoreWires.or_joins _ _ _ (fun w member => ?_) (.inr ⟨rfl,?_⟩)
  · obtain ⟨i,-,rfl⟩ := mem_map.mp member
    by_cases here : i = k
    · subst here
      exact .inr turn
    · exact .inl (if_neg fun enabled => here ((enable_iff slot i).mp enabled))
  · exact mem_map.mpr ⟨k,mem_finRange k,turn⟩

theorem drives_iff (held : ∀ i, (d.nd i).masterReg.cmd = NodeState.command (d.nd i).state)
    (i : Fin (cores+1)) : d.drives i = true ↔ i = k ∧ (d.nd i).state ≠ .idle := by
  rw [SharedSpm.drives,NodeSpm.toMem]
  by_cases here : i = k
  · rw [if_pos ((enable_iff slot i).mpr here)]
    simp only [here,OcpCoreWires.drive,held]
    cases (d.nd k).state <;> decide
  · rw [if_neg fun enabled => here ((enable_iff slot i).mp enabled)]
    simp [here,OcpCoreWires.zero]

theorem reaches_turn (size : Nat) (x : Cycle cores) (held : ∀ i, (d.nd i).masterReg.cmd = NodeState.command (d.nd i).state) :
    reaches size d x = if (d.nd k).state = .idle then []
      else [⟨k,(d.nd k).masterReg,(d.next size x.m x.undefined).spm.data size⟩] := by
  have single := CompareAndSwap.flatMap_single
    (fun i => if d.drives i then [(⟨i,d.spmM.sense,(d.next size x.m x.undefined).spm.data size⟩ : Access _ _ _)] else [])
    (finRange (cores+1)) (nodup_finRange _) (mem_finRange k) fun j other =>
      if_neg fun driving => other ((drives_iff slot held j).mp driving).1
  rw [reaches,single,spmM_turn slot,OcpCoreWires.sense_drive]
  by_cases idle : (d.nd k).state = .idle
  · rw [if_pos idle,if_neg fun driving => ((drives_iff slot held k).mp driving).2 idle]
  · rw [if_neg idle,if_pos ((drives_iff slot held k).mpr ⟨rfl,idle⟩)]

theorem answering_next (size : Nat) (x : Cycle cores) (i : Fin (cores+1)) :
    answering size (d.next size x.m x.undefined) i =
      if i = k ∧ (d.nd i).state ≠ .idle then some ((d.next size x.m x.undefined).spm.data size) else none := by
  have resp : ((d.next size x.m x.undefined).coreS size i).resp = (d.nd i).dvaRepl i := rfl
  unfold answering
  rw [resp]
  have turn := enable_iff slot i
  have data : ((d.next size x.m x.undefined).coreS size i).data = (d.next size x.m x.undefined).spm.data size := rfl
  unfold NodeSpm.dvaRepl
  rw [data]
  cases (d.nd i).state with
  | idle => simp
  | rd | wr => by_cases enabled : (d.nd i).enable i = true <;> simp [← turn]

theorem waiting_next (size : Nat) (ready : (x.m i).cmd ≠ .idle → waiting d i = none) :
    (waiting d i).toList ++ (issued x.m i).toList =
      (if i = k then (waiting d i).toList else []) ++ (waiting (d.next size x.m x.undefined) i).toList := by
  have turn := enable_iff slot i
  have state : ((d.next size x.m x.undefined).nd i) = (d.nd i).next (cores+1) i (x.m i) := rfl
  unfold waiting issued at *
  rw [state]
  by_cases idle : (d.nd i).state = .idle
  · cases command : (x.m i).cmd <;> simp [NodeSpm.next,idle,command]
  · have silent : (x.m i).cmd = .idle := by
      by_contra command
      simp [idle] at ready
      exact command ready
    cases here : (d.nd i).state with
    | idle => exact absurd here idle
    | rd | wr => by_cases enabled : (d.nd i).enable i = true <;> simp [NodeSpm.next,here,silent,← turn,enabled]
end
end Slot

section Memory
variable {d : SharedSpm cores} {m : OcpCoreMasterSignals 4}

theorem latest_writesTo (word : OcpCoreMasterSignals 4 → Nat) (mem : Nat → Word 4) (cell : Cell) :
    latest (fun cell : Cell => mem cell.1 cell.2) (writesTo word m) cell =
      Function.update mem (word m) (BurstMemory.merge (mem (word m)) m.data (Spm.stmsk m)) cell.1 cell.2 := by
  obtain ⟨place,lane⟩ := cell
  by_cases here : place = word m
  · subst here
    rw [Function.update_self,BurstMemory.merge]
    by_cases enabled : Spm.stmsk m lane = true
    · rw [if_pos enabled]
      refine latest_written _ _ (mem_map.mpr ⟨lane,mem_filter.mpr ⟨mem_finRange lane,enabled⟩,rfl⟩) ?_
      intro w inside same
      obtain ⟨b,-,rfl⟩ := mem_map.mp inside
      cases same
      rfl
    · rw [if_neg enabled]
      refine latest_absent _ _ fun w inside same => enabled ?_
      obtain ⟨b,member,rfl⟩ := mem_map.mp inside
      cases same
      exact (mem_filter.mp member).2
  · rw [Function.update_of_ne here]
    refine latest_absent _ _ fun w inside same => here ?_
    obtain ⟨b,-,rfl⟩ := mem_map.mp inside
    cases same
    rfl

theorem writesTo_other (word : OcpCoreMasterSignals 4 → Nat) (quiet : m.cmd ≠ .wr) : writesTo word m = [] := by
  simp [writesTo,Spm.stmsk,quiet]

theorem mem_next (sensed : d.spmM.sense = m) (x : Cycle cores) (cell : Cell) :
    (d.next size x.m x.undefined).spm.mem cell.1 cell.2 =
      latest (fun cell : Cell => d.spm.mem cell.1 cell.2) (writes size m) cell := by
  rw [writes,latest_writesTo,← sensed]
  rfl

theorem data_next (sensed : d.spmM.sense = m) (x : Cycle cores) (read : m.cmd = .rd) (inside : word size m < size/4) (b : Fin 4) :
    (d.next size x.m x.undefined).spm.data size b = d.spm.mem (word size m) b := by
  have blocks : 0 < size := by omega
  have unmasked : Spm.stmsk m b = false := by simp [Spm.stmsk,read]
  have mask : Spm.stmsk (SharedSpm.memM size d.spmM.sense) b = false := by rw [sensed]; exact unmasked
  rw [Spm.data,if_pos blocks]
  change (if Spm.stmsk (SharedSpm.memM size d.spmM.sense) b then _ else _) = _
  rw [mask,sensed]
  rfl
end Memory

section Invariant
variable {s : State cores} {x : Cycle cores}

theorem cnt_next (n : NodeSpm) (k : Fin (cores+1)) (here : n.cnt = k) (id : Nat) (m : OcpCoreMasterSignals 4) :
    (n.next (cores+1) id m).cnt = (k.val+1) % (cores+1) := by
  have counted := counter_next (Nat.succ_pos cores) k.val
  rw [Nat.mod_eq_of_lt k.isLt] at counted
  rw [← counted,← here]
  rfl

theorem held_next (n : NodeSpm) (nrCores id : Nat) (m : OcpCoreMasterSignals 4)
    (held : n.masterReg.cmd = NodeState.command n.state) :
    (n.next nrCores id m).masterReg.cmd = NodeState.command (n.next nrCores id m).state := by
  cases state : n.state with
  | idle =>
    cases command : m.cmd <;> simp [NodeSpm.next,state,command,NodeState.command,held]
  | rd | wr =>
    by_cases enabled : n.enable id = true <;> simp [NodeSpm.next,state,enabled,NodeState.command,held]

theorem orderly_step (valid : Valid size s) (admitted : (system cores size).admits s x) :
    (s.after size x).ports.Orderly (waiting (s.after size x).device)
      (answering size (s.after size x).device) := by
  obtain ⟨k,slot⟩ := valid.slot
  have ready (i) (command : (x.m i).cmd ≠ .idle) := valid.orderly.ready (admitted i command)
  have effects := reaches_turn slot size x valid.held
  refine valid.orderly.next (fun i => ?_) (fun i => ?_)
  · rw [waiting_next slot size (ready i),effects]
    congr 1
    by_cases idle : (s.device.nd k).state = .idle
    · split
      case isTrue here => simp [here,waiting,idle,ofPort]
      case isFalse => rfl
    · rw [if_neg idle,ofPort_single]
      split
      case isTrue here => simp [here,waiting,idle]
      case isFalse => rfl
  · change _ = (answering size (s.device.next size x.m x.undefined) i).toList
    rw [answering_next slot size x,effects]
    by_cases idle : (s.device.nd k).state = .idle
    · rw [if_pos idle,if_neg fun turn => turn.2 (turn.1 ▸ idle)]
      rfl
    · rw [if_neg idle,ofPort_single]
      by_cases here : i = k
      · rw [if_pos here,if_pos ⟨here,here ▸ idle⟩]
        rfl
      · rw [if_neg here,if_neg fun turn => here turn.1]
        rfl

theorem log_step : log size (s.after size x) =
    log size s ++ (reaches size s.device x).flatMap fun a => writes size a.command := flatMap_append

theorem memory_step (valid : Valid size s) (cell : Cell) :
    (s.device.next size x.m x.undefined).spm.mem cell.1 cell.2 =
      latest s.origin (log size (s.after size x)) cell := by
  obtain ⟨k,slot⟩ := valid.slot
  have sensed : s.device.spmM.sense = (s.device.nd k).masterReg := by rw [spmM_turn slot,OcpCoreWires.sense_drive]
  have same : (fun cell : Cell => s.device.spm.mem cell.1 cell.2) = latest s.origin (log size s) := funext valid.memory
  rw [mem_next sensed,log_step,latest_append,same,reaches_turn slot size x valid.held]
  by_cases idle : (s.device.nd k).state = .idle
  · have quiet : (s.device.nd k).masterReg.cmd ≠ .wr := by
      rw [valid.held,idle]
      decide
    rw [if_pos idle,writes,writesTo_other _ quiet]
    rfl
  · rw [if_neg idle,flatMap_singleton]

theorem sequential_step (valid : Valid size s) :
    Sequential (writes size) (Gives size) s.origin (s.ports.history ++ reaches size s.device x) := by
  obtain ⟨k,slot⟩ := valid.slot
  have sensed : s.device.spmM.sense = (s.device.nd k).masterReg := by rw [spmM_turn slot,OcpCoreWires.sense_drive]
  rw [reaches_turn slot size x valid.held]
  split
  case isTrue =>
    rw [append_nil]
    exact valid.sequential
  case isFalse =>
    refine Each.snoc valid.sequential fun read inside b => ?_
    exact (data_next sensed x read inside b).trans (valid.memory (word size _,b))

theorem valid_start (begun : (system cores size).start s) : Valid size s := by
  obtain ⟨reset,ports,origin⟩ := begun
  have rested : waiting s.device = fun _ => none := funext fun i => if_pos (reset i).1
  have silent : answering size s.device = fun _ => none := funext fun i => by
    have null : (s.device.coreS size i).resp = .null := (reset i).2.2.2
    simp [answering,null]
  refine ⟨⟨⟨0,Nat.succ_pos _⟩,fun i => (reset i).2.1⟩,fun i => ?_,?_,fun cell => ?_,?_⟩
  · rw [(reset i).2.2.1,(reset i).1]
    rfl
  · rw [ports,rested,silent]
    exact .empty
  · rw [log,ports]
    exact (origin cell).symm
  · rw [ports]
    exact .nil

theorem valid_step (valid : Valid size s) (admitted : (system cores size).admits s x) :
    Valid size (s.after size x) := by
  refine ⟨?_,fun i => held_next _ _ _ _ (valid.held i),orderly_step valid admitted,memory_step valid,sequential_step valid⟩
  obtain ⟨k,slot⟩ := valid.slot
  exact ⟨⟨(k.val+1) % (cores+1),Nat.mod_lt _ (Nat.succ_pos _)⟩,fun i => cnt_next _ k (slot i) _ _⟩

theorem reached_valid (path : Reached (system cores size) s) : Valid size s :=
  path.invariant (fun _ => valid_start) (fun _ _ => valid_step)

theorem valid_linearizable (valid : Valid size s) : Linearizable size s := by
  obtain ⟨k,slot⟩ := valid.slot
  refine ⟨fun i j left right => ?_,valid.orderly,valid.sequential⟩
  rw [((drives_iff slot valid.held i).mp left).1,((drives_iff slot valid.held j).mp right).1]

def untilSlot (d : SharedSpm cores) (i : Fin (cores+1)) : Nat :=
  if (d.nd i).cnt ≤ i then i-(d.nd i).cnt else i+(cores+1)-(d.nd i).cnt

theorem untilSlot_step (size : Nat) (x : Cycle cores) (k : Fin (cores+1)) (slot : ∀ i, (s.device.nd i).cnt = k) (i : Fin (cores+1)) (other : i ≠ k) :
    untilSlot (s.after size x).device i+1 = untilSlot s.device i := by
  have next : ((s.after size x).device.nd i).cnt = (k.val+1) % (cores+1) := cnt_next _ k (slot i) _ _
  unfold untilSlot
  rw [next,slot]
  rcases Nat.lt_or_ge (k.val+1) (cores+1) with more | last
  · rw [Nat.mod_eq_of_lt more]
    split <;> split <;> omega
  · rw [show k.val+1 = cores+1 by omega,Nat.mod_self]
    split <;> split <;> omega

theorem answer_step (i : Fin (cores+1)) (path : Reached (system cores size) s) (admitted : (system cores size).admits s x)
    (pending : (waiting s.device i).isSome = true) :
    (answering size (s.after size x).device i).isSome = true ∨
    (waiting (s.after size x).device i).isSome = true ∧
      untilSlot (s.after size x).device i < untilSlot s.device i := by
  have valid := reached_valid path
  obtain ⟨k,slot⟩ := valid.slot
  by_cases here : i = k
  · left
    have busy : (s.device.nd i).state ≠ .idle := by
      intro idle
      simp [waiting,idle] at pending
    rw [show answering size (s.after size x).device i = _ from answering_next slot size x i,if_pos ⟨here,busy⟩]
    rfl
  · right
    have ready (command : (x.m i).cmd ≠ .idle) := valid.orderly.ready (admitted i command)
    have kept := waiting_next slot size ready
    rw [if_neg here] at kept
    have nearer := untilSlot_step size x k slot i here
    refine ⟨?_,by omega⟩
    obtain ⟨command,pending⟩ := Option.isSome_iff_exists.mp pending
    rw [pending] at kept
    cases still : waiting (s.after size x).device i with
    | none =>
      rw [show waiting (s.device.next size x.m x.undefined) i = none from still] at kept
      simp at kept
    | some _ => rfl

theorem answer_arrives (path : Reached (system cores size) s) {inputs : Nat → Cycle cores}
    (follows : ∀ t, (system cores size).Follows s inputs t) (i : Fin (cores+1)) (pending : (waiting s.device i).isSome = true) :
    ∃ t ≤ cores+1, (answering size ((system cores size).states s inputs t).device i).isSome = true := by
  have bound : untilSlot s.device i+1 ≤ cores+1 := by
    unfold untilSlot
    split <;> omega
  obtain ⟨t,within,answered⟩ := Reached.answered (fun s => (answering size s.device i).isSome = true)
    (fun s => untilSlot s.device i) (fun _ _ => answer_step i) path follows pending
  exact ⟨t,within.trans bound,answered⟩
end Invariant

theorem shared_spm_linearizable {s : State cores} (path : Reached (system cores size) s) :
    Linearizable size s ∧
    ∀ inputs, (∀ t, (system cores size).Follows s inputs t) → ∀ i, (waiting s.device i).isSome = true →
      ∃ t ≤ cores+1, (answering size ((system cores size).states s inputs t).device i).isSome = true :=
  ⟨valid_linearizable (reached_valid path),fun _ => answer_arrives path⟩

def initial (cores : Nat) : State cores where
  device := ⟨fun _ => ⟨.idle,0,⟨.idle,0,fun _ => 0,fun _ => false⟩,.null⟩,⟨fun _ _ => 0,fun _ => 0⟩⟩
  ports := .empty
  origin _ := 0

theorem initial_reached (cores size : Nat) : Reached (system cores size) (initial cores) :=
  .start ⟨fun _ => ⟨rfl,rfl,rfl,rfl⟩,rfl,fun _ => rfl⟩

instance (s : State cores) (x : Cycle cores) : Decidable ((system cores size).admits s x) :=
  inferInstanceAs (Decidable (∀ i, (x.m i).cmd ≠ .idle → s.ports.Ready (answering size s.device) i))

-- Two cores write different bytes of one word at once, and both read it back.
def exchange : List (Cycle 1) :=
  let each (cmd : OcpCmd) : Cycle 1 := ⟨fun i => ⟨cmd,4,fun _ => BitVec.ofNat 8 (i.val+5),fun b => b.val = i.val⟩,fun _ => 0⟩
  [each .wr,each .idle,each .idle,each .idle,each .rd,each .idle,each .idle,each .idle]

theorem shared_spm_linearizable_exchange :
    let s := (system 1 8).run (initial 1) exchange
    s.ports.history.map (fun a => (a.port,a.command.cmd)) = [(1,.wr),(0,.wr),(1,.rd),(0,.rd)] ∧
      (∀ i, (s.ports.results i).getLast?.map (fun data => (finRange 4).map data) = some [5,6,0,0]) ∧
      Linearizable 8 s ∧
      ∀ inputs, (∀ t, (system 1 8).Follows s inputs t) → ∀ i, (waiting s.device i).isSome = true →
        ∃ t ≤ 2, (answering 8 ((system 1 8).states s inputs t).device i).isSome = true :=
  have path := (initial_reached 1 8).run exchange (by decide +kernel)
  ⟨by decide +kernel,by decide +kernel,shared_spm_linearizable path⟩
end SharedMemory
end Patmos
