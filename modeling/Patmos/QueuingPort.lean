import Patmos.TransitionSystem
import Patmos.CircularBuffer
import Patmos.RegisterWidth
import Patmos.NocDma
import Patmos.Numbered
namespace Patmos.QueuingPort
open Transition NocDma Numbered Function Nat

-- The words of each port that the transfers read or write. Behind the words of a message comes its flag.
inductive SourceWord where
  | buffer (shadow : Bool) (word : Nat)
  | sendRecvCount
  deriving DecidableEq, Repr

inductive SinkWord where
  | buffer (index word : Nat)
  | recvCount
  deriving DecidableEq, Repr

def flagValid : Nat := 2^32-1

def flagInvalid : Nat := 0

-- The statement of mp_nbsend that comes next.
inductive SendPc where
  | idle
  | flag
  | room
  | transfer
  | advance
  deriving DecidableEq, Repr

-- The statement of mp_nbrecv, mp_nback or mp_ack_n that comes next.
inductive SinkPc where
  | idle
  | check
  | clear
  | nbDone
  | nbCount
  | nbTransfer
  | nbUndo
  | ackWait (num : Nat)
  | ackCount (num : Nat)
  | ackTransfer (num : Nat)
  | ackUndo (num : Nat)
  deriving DecidableEq, Repr

structure Source where
  pc : SendPc
  memory : SourceWord → Nat
  sendCount : Nat
  sendPtr : Nat
  writeBuf : Bool
  shadowWriteBuf : Bool
  dma : Transfer SourceWord SinkWord Nat

structure Sink where
  pc : SinkPc
  memory : SinkWord → Nat
  recvPtr : Nat
  readBuf : Nat
  dma : Transfer SinkWord SourceWord Nat

-- A successful mp_nbrecv: the buffer it hands out and what is in it then.
structure Receipt where
  buffer : Nat
  content : Nat → Nat

-- Beside the two ports, the payloads of the messages handed to the DMA and how many messages have been counted by the
-- source, have arrived, have been received and acknowledged, and are known to the source as acknowledged. The last
-- transfer of the source reads the buffer `origin`.
structure State where
  source : Source
  sink : Sink
  sent : List (Nat → Nat)
  returned : Nat
  arrived : Nat
  received : Nat
  acked : Nat
  seen : Nat
  origin : Bool
  receipts : List Receipt

def message (words : Nat) (origin : Bool) (index : Nat) : List (SourceWord × SinkWord) :=
  (List.range (words+1)).map fun i => (.buffer origin i,.buffer index i)

def difference (left right : Nat) : Nat := (left+2^32-right) % 2^32

def step (numBuf ptr : Nat) : Nat := if ptr = numBuf-1 then 0 else ptr+1

section
variable (words numBuf : Nat) (s : State)

-- mp_nbsend. A transfer of another port may keep the DMA occupied.
def runSource (occupied : Bool) (s : State) : State :=
  match s.source.pc with
  | .idle => s
  | .flag =>
    {s with source := {s.source with
      pc := .room
      memory := update s.source.memory (.buffer s.source.writeBuf words) flagValid}}
  | .room =>
    if difference s.source.sendCount (s.source.memory .sendRecvCount) = numBuf then
      {s with source := {s.source with pc := .idle}}
    else {s with source := {s.source with pc := .transfer}}
  | .transfer =>
    if s.source.dma.done && !occupied then
      {s with
        source := {s.source with pc := .advance,dma := .start (message words s.source.writeBuf s.source.sendPtr)}
        sent := s.sent ++ [fun i => s.source.memory (.buffer s.source.writeBuf i)]
        origin := s.source.writeBuf}
    else {s with source := {s.source with pc := .idle}}
  | .advance =>
    {s with
      source := {s.source with
        pc := .idle
        sendCount := (s.source.sendCount+1) % 2^32
        sendPtr := step numBuf s.source.sendPtr
        writeBuf := s.source.shadowWriteBuf
        shadowWriteBuf := s.source.writeBuf}
      returned := s.returned+1}

def Sink.count (c : Sink) (pc : SinkPc) (value : Nat) : Sink :=
  {c with pc := pc,memory := update c.memory .recvCount (value % 2^32)}

def acknowledge (num : Nat) : State :=
  {s with
    sink := {s.sink with pc := .idle,dma := .start [(.recvCount,.sendRecvCount)]}
    acked := s.acked+num}

def goes (pc : SinkPc) : State := {s with sink := {s.sink with pc := pc}}

-- mp_nbrecv, mp_nback and mp_ack_n, whose time-out may have expired.
def runSink (occupied expired : Bool) (s : State) : State :=
  match s.sink.pc with
  | .idle => s
  | .check => if s.sink.memory (.buffer s.sink.recvPtr words) = flagInvalid then goes s .idle else goes s .clear
  | .clear =>
    {s with
      sink := {s.sink with
        pc := .idle
        recvPtr := step numBuf s.sink.recvPtr
        memory := update s.sink.memory (.buffer s.sink.recvPtr words) flagInvalid
        readBuf := s.sink.recvPtr}
      received := s.received+1
      receipts := s.receipts ++ [⟨s.sink.recvPtr,fun i => s.sink.memory (.buffer s.sink.recvPtr i)⟩]}
  | .nbDone => if s.sink.dma.done && !occupied then goes s .nbCount else goes s .idle
  | .nbCount => {s with sink := s.sink.count .nbTransfer (s.sink.memory .recvCount+1)}
  | .nbTransfer => if s.sink.dma.done && !occupied then acknowledge s 1 else goes s .nbUndo
  | .nbUndo => {s with sink := s.sink.count .idle (difference (s.sink.memory .recvCount) 1)}
  | .ackWait num =>
    if expired then goes s .idle else if s.sink.dma.done && !occupied then goes s (.ackCount num) else s
  | .ackCount num => {s with sink := s.sink.count (.ackTransfer num) (s.sink.memory .recvCount+num)}
  | .ackTransfer num =>
    if expired then goes s (.ackUndo num) else if s.sink.dma.done && !occupied then acknowledge s num else s
  | .ackUndo num => {s with sink := s.sink.count .idle (difference (s.sink.memory .recvCount) (num % 2^32))}

def isFlag (words : Nat) : SinkWord → Bool
  | .buffer _ word => word == words
  | .recvCount => false

inductive Action where
  | fill (word value : Nat)
  | send
  | runSource (occupied : Bool)
  | receive
  | nback
  | ackN (num : Nat)
  | runSink (occupied expired : Bool)
  | fetchSource
  | fetchSink
  | deliverSource
  | deliverSink

def apply : Action → State
  | .fill word value =>
    if s.source.pc = .idle ∧ word < words then
      {s with source := {s.source with
        memory := update s.source.memory (.buffer s.source.writeBuf word) value}}
    else s
  | .send => if s.source.pc = .idle then {s with source := {s.source with pc := .flag}} else s
  | .runSource occupied => runSource words numBuf occupied s
  | .receive => if s.sink.pc = .idle then goes s .check else s
  | .nback => if s.sink.pc = .idle then goes s .nbDone else s
  | .ackN num => if s.sink.pc = .idle then goes s (.ackWait num) else s
  | .runSink occupied expired => runSink words numBuf occupied expired s
  | .fetchSource => {s with source := {s.source with dma := s.source.dma.fetch s.source.memory}}
  | .fetchSink => {s with sink := {s.sink with dma := s.sink.dma.fetch s.sink.memory}}
  | .deliverSource =>
    match s.source.dma.arrival with
    | none => s
    | some word =>
      {s with
        source := {s.source with dma := s.source.dma.deliver}
        sink := {s.sink with memory := update s.sink.memory word.1 word.2}
        arrived := if isFlag words word.1 then s.arrived+1 else s.arrived}
  | .deliverSink =>
    match s.sink.dma.arrival with
    | none => s
    | some word =>
      {s with
        sink := {s.sink with dma := s.sink.dma.deliver}
        source := {s.source with memory := update s.source.memory word.1 word.2}
        seen := s.acked}

-- The sink never acknowledges more messages than it received.
def Allowed : Action → Prop
  | .nback => s.acked+1 ≤ s.received
  | .ackN num => s.acked+num ≤ s.received
  | _ => True

-- The ports after mp_create_qport and mp_init_ports.
structure Initial : Prop where
  source : s.source.pc = .idle ∧ s.source.sendCount = 0 ∧ s.source.sendPtr = 0 ∧ s.source.writeBuf = false ∧
    s.source.shadowWriteBuf = true ∧ s.source.memory .sendRecvCount = 0 ∧ s.source.dma = .none
  sink : s.sink.pc = .idle ∧ s.sink.recvPtr = 0 ∧ s.sink.memory .recvCount = 0 ∧ s.sink.dma = .none
  flags : ∀ index < numBuf, s.sink.memory (.buffer index words) = flagInvalid
  nothing : s.sent = [] ∧ s.returned = 0 ∧ s.arrived = 0 ∧ s.received = 0 ∧ s.acked = 0 ∧ s.seen = 0 ∧ s.receipts = []
end

def system (words numBuf : Nat) : System State Action where
  start := Initial words numBuf
  admits s action := Allowed s action
  next s action := apply words numBuf s action

section Invariant
structure Order (numBuf seen acked received arrived sent : Nat) : Prop where
  reported : seen ≤ acked
  taken : acked ≤ received
  found : received ≤ arrived
  delivered : arrived ≤ sent
  room : sent ≤ seen+numBuf

inductive Sender (numBuf flag sent returned seen : Nat) : SendPc → Prop where
  | idle : sent = returned → Sender numBuf flag sent returned seen .idle
  | flag : sent = returned → Sender numBuf flag sent returned seen .flag
  | room : sent = returned → flag = flagValid → Sender numBuf flag sent returned seen .room
  | transfer : sent = returned → flag = flagValid → sent < seen+numBuf → Sender numBuf flag sent returned seen .transfer
  | advance : sent = returned+1 → Sender numBuf flag sent returned seen .advance

-- The transfer of the source is over, or moves the last message.
inductive Data (words numBuf : Nat) (dma : Transfer SourceWord SinkWord Nat) (source : SourceWord → Nat)
    (sink : SinkWord → Nat) (sent : List (Nat → Nat)) (arrived : Nat) (origin : Bool) : Prop where
  | rest : dma = .none → sent.length = arrived → Data words numBuf dma source sink sent arrived origin
  | moving : sent.length = arrived+1 → (∀ i ≤ words, held (.buffer origin i) = source (.buffer origin i)) →
      held (.buffer origin words) = flagValid → (Matches sent arrived words fun i => held (.buffer origin i)) →
      Moves dma (message words origin (arrived % numBuf)) landed held → Landed sink held landed →
      (∀ w ∈ landed, isFlag words w.2 = false) → Data words numBuf dma source sink sent arrived origin

-- The buffer handed to the sender is not the one being read.
inductive Apart (dma : Transfer SourceWord SinkWord Nat) (writeBuf origin : Bool) : SendPc → Prop where
  | begun : origin = writeBuf → Apart dma writeBuf origin .advance
  | past : dma = .none → Apart dma writeBuf origin pc
  | other : pc ≠ .advance → origin = !writeBuf → Apart dma writeBuf origin pc

structure Window (words numBuf : Nat) (memory : SinkWord → Nat) (sent : List (Nat → Nat)) (acked received arrived : Nat) :
    Prop where
  contents : CircularBuffer.Holds numBuf (fun index i => memory (.buffer index i)) (fun k => Matches sent k words) acked arrived
  ready : CircularBuffer.Holds numBuf (fun index => memory (.buffer index words)) (fun _ => (· = flagValid)) received arrived
  clear : CircularBuffer.Holds numBuf (fun index => memory (.buffer index words)) (fun _ => (· = flagInvalid)) arrived
    (received+numBuf)

structure Receiver (words numBuf recvPtr : Nat) (pc : SinkPc) (sent : List (Nat → Nat)) (received arrived : Nat)
    (receipts : List Receipt) : Prop where
  ptr : recvPtr = received % numBuf
  length : receipts.length = received
  each : ∀ k receipt, receipts[k]? = some receipt → receipt.buffer = k % numBuf ∧ Matches sent k words receipt.content
  found : pc = .clear → received < arrived

-- What an acknowledgement under way asks for, and what it has added already.
def asks : SinkPc → Nat
  | .nbDone | .nbCount | .nbTransfer | .nbUndo => 1
  | .ackWait num | .ackCount num | .ackTransfer num | .ackUndo num => num
  | _ => 0

def added : SinkPc → Nat
  | .nbTransfer | .nbUndo => 1
  | .ackTransfer num | .ackUndo num => num
  | _ => 0

def checked : SinkPc → Bool
  | .nbCount | .nbTransfer | .nbUndo | .ackCount _ | .ackTransfer _ | .ackUndo _ => true
  | _ => false

inductive Reported (dma : Transfer SinkWord SourceWord Nat) (pc : SinkPc) (acked seen : Nat) : Prop where
  | arrived : dma = .none → seen = acked → Reported dma pc acked seen
  | underway : Carries dma .recvCount .sendRecvCount (acked % 2^32) → checked pc = false → Reported dma pc acked seen

structure Acknowledging (recvCount : Nat) (dma : Transfer SinkWord SourceWord Nat) (pc : SinkPc) (received acked seen : Nat) :
    Prop where
  asked : acked+asks pc ≤ received
  count : recvCount = (acked+added pc) % 2^32
  reported : Reported dma pc acked seen

structure Valid (words numBuf : Nat) (s : State) : Prop where
  order : Order numBuf s.seen s.acked s.received s.arrived s.sent.length
  sender : Sender numBuf (s.source.memory (.buffer s.source.writeBuf words)) s.sent.length s.returned s.seen s.source.pc
  count : s.source.sendCount = s.returned % 2^32
  ptr : s.source.sendPtr = s.returned % numBuf
  shadow : s.source.shadowWriteBuf = !s.source.writeBuf
  known : s.source.memory .sendRecvCount = s.seen % 2^32
  data : Data words numBuf s.source.dma s.source.memory s.sink.memory s.sent s.arrived s.origin
  apart : Apart s.source.dma s.source.writeBuf s.origin s.source.pc
  window : Window words numBuf s.sink.memory s.sent s.acked s.received s.arrived
  receiver : Receiver words numBuf s.sink.recvPtr s.sink.pc s.sent s.received s.arrived s.receipts
  acknowledging : Acknowledging (s.sink.memory .recvCount) s.sink.dma s.sink.pc s.received s.acked s.seen
end Invariant

section Steps
variable {words numBuf : Nat} {s : State}

theorem step_mod (positive : 1 ≤ numBuf) (k : Nat) : step numBuf (k % numBuf) = (k+1) % numBuf :=
  Register.succ_mod positive k

theorem difference_exact (ordered : right ≤ left) (near : left < right+2^32) :
    difference (left % 2^32) (right % 2^32) = left-right := by
  unfold difference
  omega

theorem difference_undo (acked num : Nat) : difference ((acked+num) % 2^32) (num % 2^32) % 2^32 = acked % 2^32 := by
  unfold difference
  omega

theorem mem_message (member : w ∈ message words origin index) :
    ∃ i ≤ words, w = (.buffer origin i,.buffer index i) := by
  obtain ⟨i,inside,rfl⟩ := List.mem_map.mp member
  exact ⟨i,le_of_lt_succ (List.mem_range.mp inside),rfl⟩

theorem message_mem (words : Nat) (origin : Bool) (index : Nat) (inside : i ≤ words) :
    (.buffer origin i,.buffer index i) ∈ message words origin index :=
  List.mem_map.mpr ⟨i,List.mem_range.mpr (lt_succ_of_le inside),rfl⟩

theorem message_last (words : Nat) (origin : Bool) (index : Nat) :
    message words origin index =
      ((List.range words).map fun i => (.buffer origin i,.buffer index i)) ++ [(.buffer origin words,.buffer index words)] := by
  simp [message,List.range_succ]

section
variable (data : Data words numBuf dma source sink sent arrived origin)
include data

theorem length_of_done (done : dma.done = true) : sent.length = arrived := by
  cases data with
  | rest _ length => exact length
  | moving length agree flag payload moves landed before =>
    obtain ⟨_,rfl⟩ := moves.finished done
    have wrong := before _ (message_mem words origin (arrived % numBuf) le_rfl)
    simp [isFlag] at wrong

theorem data_source (same : ∀ i, other (.buffer origin i) = source (.buffer origin i)) :
    Data words numBuf dma other sink sent arrived origin := by
  cases data with
  | rest none length => exact .rest none length
  | moving length agree flag payload moves landed before =>
    exact .moving length (fun i inside => (agree i inside).trans (same i).symm) flag payload moves landed before

theorem data_written (apart : Apart dma writeBuf origin pc) (idle : pc ≠ .advance) (word value : Nat) :
    Data words numBuf dma (update source (.buffer writeBuf word) value) sink sent arrived origin := by
  cases apart with
  | begun _ => exact absurd rfl idle
  | past none =>
    have done : dma.done = true := by
      rw [none]
      rfl
    exact .rest none (length_of_done data done)
  | other _ away =>
    subst away
    exact data_source data fun i => by simp

theorem data_kept (kept : ∀ index i, i ≠ words → other (.buffer index i) = sink (.buffer index i)) :
    Data words numBuf dma source other sent arrived origin := by
  cases data with
  | rest none length => exact .rest none length
  | moving length agree flag payload moves landed before =>
    refine .moving length agree flag payload moves (fun w member => ?_) before
    obtain ⟨i,-,rfl⟩ := mem_message (moves.landed_mem member)
    rw [kept _ i fun same => by simpa [isFlag,same] using before _ member]
    exact landed _ member
end

theorem Sender.later (sender : Sender numBuf mark sent returned seen pc) (later : seen ≤ now) :
    Sender numBuf mark sent returned now pc := by
  cases sender with
  | idle same => exact .idle same
  | flag same => exact .flag same
  | room same flag => exact .room same flag
  | transfer same flag space => exact .transfer same flag (space.trans_le (Nat.add_le_add_right later numBuf))
  | advance same => exact .advance same

theorem Apart.moved (apart : Apart dma writeBuf origin pc) (rests : dma = .none → after = .none) :
    Apart after writeBuf origin pc := by
  cases apart with
  | begun here => exact .begun here
  | past none => exact .past (rests none)
  | other idle away => exact .other idle away

theorem Apart.deliver (apart : Apart dma writeBuf origin pc) : Apart dma.deliver writeBuf origin pc :=
  apart.moved fun none => by rw [none]; rfl

theorem Apart.keep (apart : Apart dma writeBuf origin pc) (idle : pc ≠ .advance) (still : next ≠ .advance) :
    Apart dma writeBuf origin next := by
  cases apart with
  | begun _ => exact absurd rfl idle
  | past none => exact .past none
  | other _ away => exact .other still away

section
variable (valid : Valid words numBuf s)
include valid

theorem source_run (positive : 1 ≤ numBuf) (fits : numBuf < 2^32) (occupied : Bool) :
    Valid words numBuf (runSource words numBuf occupied s) := by
  have order := valid.order
  have sender := valid.sender
  have apart := valid.apart
  unfold runSource
  generalize s.source.pc = pc at sender apart
  cases sender with
  | idle same => exact valid
  | flag same =>
    exact {valid with
      sender := .room same (update_self _ _ _)
      known := by simpa using valid.known
      data := data_written valid.data apart nofun _ _
      apart := apart.keep nofun nofun}
  | room same flag =>
    simp only
    split
    case isTrue full => exact {valid with sender := .idle same,apart := apart.keep nofun nofun}
    case isFalse space =>
      refine {valid with sender := .transfer same flag ?_,apart := apart.keep nofun nofun}
      have unseen : s.seen ≤ s.sent.length :=
        order.reported.trans (order.taken.trans (order.found.trans order.delivered))
      have room := order.room
      rw [valid.count,valid.known,← same,difference_exact unseen (by omega)] at space
      change s.sent.length < s.seen+numBuf
      omega
  | transfer same flag space =>
    simp only
    split
    case isFalse => exact {valid with sender := .idle same,apart := apart.keep nofun nofun}
    case isTrue free =>
      have length := length_of_done valid.data (Bool.and_eq_true_iff.mp free).1
      have window := valid.window
      have receiver := valid.receiver
      have longer : (s.sent ++ [fun i => s.source.memory (.buffer s.source.writeBuf i)]).length = s.sent.length+1 := by
        simp
      refine {valid with
        order := ?_,sender := .advance (by rw [longer,same]),data := ?_,apart := .begun rfl,window := ?_,receiver := ?_}
      · rw [longer]
        exact ⟨order.reported,order.taken,order.found,le_succ_of_le order.delivered,space⟩
      · refine .moving (by rw [longer,length]) (fun _ _ => rfl) flag ?_ ?_ Landed.none nofun
        · rw [← length]
          exact matches_last _ _ _
        · rw [valid.ptr,← same,length]
          exact Moves.start
      · exact ⟨window.contents.weaken fun k content _ _ same => same.append _,window.ready,window.clear⟩
      · exact ⟨receiver.ptr,receiver.length,fun k receipt found => (receiver.each k receipt found).imp_right (·.append _),
          receiver.found⟩
  | advance same =>
    refine {valid with sender := .idle same,count := ?_,ptr := ?_,shadow := ?_,apart := ?_}
    · rw [valid.count,mod_add_mod]
    · rw [valid.ptr,step_mod positive]
    · rw [valid.shadow,Bool.not_not]
    · cases apart with
      | begun here => exact .other nofun (by rw [here,valid.shadow,Bool.not_not])
      | past none => exact .past none
      | other wrong _ => exact absurd rfl wrong

theorem fill_step (word value : Nat) :
    Valid words numBuf (apply words numBuf s (.fill word value)) := by
  simp only [apply]
  split
  case isFalse => exact valid
  case isTrue call =>
    obtain ⟨idle,inside⟩ := call
    have sender := valid.sender
    have apart := valid.apart
    rw [idle] at sender apart
    refine {valid with sender := ?_,known := by simpa using valid.known,data := data_written valid.data apart nofun _ _}
    cases sender with
    | idle same => exact idle ▸ .idle same

theorem send_step : Valid words numBuf (apply words numBuf s .send) := by
  simp only [apply]
  split
  case isFalse => exact valid
  case isTrue idle =>
    have sender := valid.sender
    have apart := valid.apart
    rw [idle] at sender apart
    cases sender with
    | idle same => exact {valid with sender := .flag same,apart := apart.keep nofun nofun}

theorem fetch_source : Valid words numBuf (apply words numBuf s .fetchSource) := by
  have fetched (none : s.source.dma = .none) : s.source.dma.fetch s.source.memory = .none := by
    rw [none]
    rfl
  refine {valid with data := ?_,apart := valid.apart.moved fetched}
  cases valid.data with
  | rest none length => exact .rest (fetched none) length
  | moving length agree flag payload moves landed before =>
    refine .moving length agree flag payload (moves.fetch fun w member => ?_) landed before
    obtain ⟨i,inside,rfl⟩ := mem_message member
    exact (agree i inside).symm
end

section
variable (order : Order numBuf seen acked received arrived (arrived+1))
include order

theorem window_other (lower : acked ≤ k) (upper : k < arrived) : k % numBuf ≠ arrived % numBuf := by
  have room := order.room
  have reported := order.reported
  exact CircularBuffer.position_ne upper (by omega)

theorem window_word (window : Window words numBuf memory sent acked received arrived) (inside : i ≠ words) (value : Nat) :
    Window words numBuf (update memory (.buffer (arrived % numBuf) i) value) sent acked received arrived := by
  refine ⟨fun k lower upper => (window.contents k lower upper).congr fun j _ => ?_,fun k lower upper => ?_,
    fun k lower upper => ?_⟩
  · have other := window_other order lower upper
    simp [other]
  · simpa [inside.symm] using window.ready k lower upper
  · simpa [inside.symm] using window.clear k lower upper

theorem window_flag (window : Window words numBuf memory sent acked received arrived)
    (payload : Matches sent arrived words fun i =>
      update memory (.buffer (arrived % numBuf) words) flagValid (.buffer (arrived % numBuf) i)) :
    Window words numBuf (update memory (.buffer (arrived % numBuf) words) flagValid) sent acked received
      (arrived+1) := by
  have taken := order.taken
  have found := order.found
  refine ⟨fun k lower upper => ?_,fun k lower upper => ?_,fun k lower upper => ?_⟩
  · rcases Nat.lt_succ_iff_lt_or_eq.mp upper with old | rfl
    · exact (window.contents k lower old).congr fun j inside => by simp [inside.ne]
    · exact payload
  · rcases Nat.lt_succ_iff_lt_or_eq.mp upper with old | rfl
    · have other := window_other order (taken.trans lower) old
      simpa [other] using window.ready k lower old
    · simp
  · have other : arrived % numBuf ≠ k % numBuf := CircularBuffer.position_ne lower (by omega)
    simpa [other.symm] using window.clear k (by omega) upper
end

def landing (s : State) (place : SinkWord) (value arrived : Nat) : State :=
  {s with
    source := {s.source with dma := s.source.dma.deliver}
    sink := {s.sink with memory := update s.sink.memory place value}
    arrived := arrived}

section Landing
variable {held : SourceWord → Nat} {landed : List (SourceWord × SinkWord)}

theorem landed_receives (moves : Moves s.source.dma (message words s.origin (s.arrived % numBuf)) landed held)
    (before : Landed s.sink.memory held landed) (i : Nat) :
    Landed (update s.sink.memory (.buffer (s.arrived % numBuf) i) (held (.buffer s.origin i))) held
      (landed ++ [(.buffer s.origin i,.buffer (s.arrived % numBuf) i)]) := by
  refine before.receive fun w old clash => ?_
  obtain ⟨j,-,rfl⟩ := mem_message (moves.landed_mem old)
  cases clash
  rfl

variable (valid : Valid words numBuf s) (length : s.sent.length = s.arrived+1)
  (flag : held (.buffer s.origin words) = flagValid) (payload : Matches s.sent s.arrived words fun i => held (.buffer s.origin i))
  (moves : Moves s.source.dma (message words s.origin (s.arrived % numBuf)) landed held)
  (before : Landed s.sink.memory held landed)
include valid length flag payload moves before

theorem word_lands (agree : ∀ i ≤ words, held (.buffer s.origin i) = s.source.memory (.buffer s.origin i))
    (unflagged : ∀ w ∈ landed, isFlag words w.2 = false) (inside : i ≠ words)
    (after : Moves s.source.dma.deliver (message words s.origin (s.arrived % numBuf))
      (landed ++ [(.buffer s.origin i,.buffer (s.arrived % numBuf) i)]) held) :
    Valid words numBuf (landing s (.buffer (s.arrived % numBuf) i) (held (.buffer s.origin i)) s.arrived) := by
  have ahead : Order numBuf s.seen s.acked s.received s.arrived (s.arrived+1) := length ▸ valid.order
  refine {valid with
    data := ?_,apart := valid.apart.deliver,window := window_word ahead valid.window inside _
    acknowledging := by simpa [landing] using valid.acknowledging}
  refine .moving length agree flag payload after (landed_receives moves before i) fun w member => ?_
  rcases List.mem_append.mp member with old | new
  · exact unflagged w old
  · rw [List.mem_singleton.mp new]
    simp [isFlag,inside]

theorem flag_lands
    (after : Moves s.source.dma.deliver (message words s.origin (s.arrived % numBuf))
      (landed ++ [(.buffer s.origin words,.buffer (s.arrived % numBuf) words)]) held) :
    Valid words numBuf (landing s (.buffer (s.arrived % numBuf) words) (held (.buffer s.origin words)) (s.arrived+1)) := by
  have order := valid.order
  have ahead : Order numBuf s.seen s.acked s.received s.arrived (s.arrived+1) := length ▸ order
  have stored := landed_receives moves before words
  obtain ⟨none,all⟩ := (message_last words s.origin (s.arrived % numBuf) ▸ after).last (by simp) (by simp)
  rw [all,← message_last,flag] at stored
  rw [flag]
  refine {valid with
    order := {order with found := le_succ_of_le order.found,delivered := le_of_eq length.symm}
    data := .rest none length,apart := valid.apart.deliver,window := ?_,receiver := {valid.receiver with found := ?_}
    acknowledging := by simpa [landing] using valid.acknowledging}
  · exact window_flag ahead valid.window (payload.congr fun j bound => stored _ (message_mem words s.origin _ bound.le))
  · exact fun here => lt_succ_of_lt (valid.receiver.found here)
end Landing

theorem deliver_source (valid : Valid words numBuf s) : Valid words numBuf (apply words numBuf s .deliverSource) := by
  cases arrival : s.source.dma.arrival with
  | none =>
    simp only [apply,arrival]
    exact valid
  | some word =>
    have received : apply words numBuf s .deliverSource =
        landing s word.1 word.2 (if isFlag words word.1 then s.arrived+1 else s.arrived) := by
      simp only [apply,arrival,landing]
    rw [received]
    cases valid.data with
    | rest none length =>
      rw [none] at arrival
      cases arrival
    | moving length agree flag payload moves landed before =>
      obtain ⟨_,value,member,after⟩ := moves.arrives arrival
      obtain ⟨i,-,same⟩ := mem_message member
      obtain ⟨target,content⟩ := word
      cases same
      cases value
      by_cases last : i = words
      · subst last
        rw [if_pos (by simp [isFlag])]
        exact flag_lands valid length flag payload moves landed after
      · rw [if_neg (by simp [isFlag,last])]
        exact word_lands valid length flag payload moves landed agree before last after

theorem Reported.goes (reported : Reported dma pc acked seen) (free : checked next = true → dma = .none) :
    Reported dma next acked seen := by
  cases reported with
  | arrived none same => exact .arrived none same
  | underway carries _ =>
    refine .underway carries (Bool.eq_false_iff.mpr fun check => ?_)
    have busy := carries.not_done
    rw [free check] at busy
    cases busy

theorem goes_step (valid : Valid words numBuf s) (pc : SinkPc) (asked : s.acked+asks pc ≤ s.received)
    (same : added pc = added s.sink.pc) (free : checked pc = true → s.sink.dma = .none)
    (found : pc = .clear → s.received < s.arrived) : Valid words numBuf (goes s pc) := by
  refine {valid with
    receiver := {valid.receiver with found := found},acknowledging := ⟨asked,?_,valid.acknowledging.reported.goes free⟩}
  change _ = (s.acked+added pc) % 2^32
  rw [same]
  exact valid.acknowledging.count

theorem count_step (valid : Valid words numBuf s) (pc : SinkPc) (value : Nat) (asked : s.acked+asks pc ≤ s.received)
    (counts : value % 2^32 = (s.acked+added pc) % 2^32) (free : s.sink.dma = .none) (other : pc ≠ .clear) :
    Valid words numBuf {s with sink := s.sink.count pc value} := by
  refine {valid with
    data := data_kept valid.data fun _ _ _ => by simp [Sink.count]
    window := ⟨fun k lower upper => ?_,fun k lower upper => ?_,fun k lower upper => ?_⟩
    receiver := {valid.receiver with found := fun here => absurd here other}
    acknowledging := ⟨asked,?_,valid.acknowledging.reported.goes fun _ => free⟩}
  · simpa [Sink.count] using valid.window.contents k lower upper
  · simpa [Sink.count] using valid.window.ready k lower upper
  · simpa [Sink.count] using valid.window.clear k lower upper
  · exact counts

theorem acknowledge_step (valid : Valid words numBuf s) (num : Nat) (asked : s.acked+num ≤ s.received)
    (counted : s.sink.memory .recvCount = (s.acked+num) % 2^32) : Valid words numBuf (acknowledge s num) := by
  exact {valid with
    order := {valid.order with reported := le_add_right_of_le valid.order.reported,taken := asked}
    window := {valid.window with contents := valid.window.contents.within (le_add_right _ _) le_rfl}
    receiver := {valid.receiver with found := nofun}
    acknowledging := ⟨asked,counted,.underway (.waiting rfl) rfl⟩}

theorem window_taken (window : Window words numBuf memory sent acked received arrived) (found : received < arrived)
    (fits : arrived ≤ received+numBuf) :
    Window words numBuf (update memory (.buffer (received % numBuf) words) flagInvalid) sent acked (received+1)
      arrived := by
  have other {k : Nat} (above : received < k) (below : k < received+numBuf) : k % numBuf ≠ received % numBuf :=
    (CircularBuffer.position_ne above below).symm
  refine ⟨fun k lower upper => ?_,fun k lower upper => ?_,fun k lower upper => ?_⟩
  · exact (window.contents k lower upper).congr fun j inside => by simp [inside.ne]
  · simpa [other lower (by omega)] using window.ready k (le_of_succ_le lower) upper
  · by_cases next : k = received+numBuf
    · subst next
      simp
    · simpa [other (found.trans_le lower) (by omega)] using window.clear k lower (by omega)

theorem receipts_taken (receiver : Receiver words numBuf recvPtr .clear sent received arrived receipts)
    (content : Matches sent received words taken) (k : Nat) (receipt : Receipt)
    (there : (receipts ++ [⟨received % numBuf,taken⟩])[k]? = some receipt) :
    receipt.buffer = k % numBuf ∧ Matches sent k words receipt.content := by
  rcases lt_trichotomy k receipts.length with old | last | beyond
  · rw [List.getElem?_append_left old] at there
    exact receiver.each k receipt there
  · rw [last,List.getElem?_concat_length] at there
    cases there
    rw [last,receiver.length]
    exact ⟨rfl,content⟩
  · rw [List.getElem?_eq_none (by rw [List.length_append]; exact beyond)] at there
    cases there

section
variable (valid : Valid words numBuf s)
include valid

theorem clear_step (positive : 1 ≤ numBuf) (here : s.sink.pc = .clear) :
    Valid words numBuf {s with
      sink := {s.sink with
        pc := .idle
        recvPtr := step numBuf s.sink.recvPtr
        memory := update s.sink.memory (.buffer s.sink.recvPtr words) flagInvalid
        readBuf := s.sink.recvPtr}
      received := s.received+1
      receipts := s.receipts ++ [⟨s.sink.recvPtr,fun i => s.sink.memory (.buffer s.sink.recvPtr i)⟩]} := by
  have order := valid.order
  have receiver := valid.receiver
  have acknowledging := valid.acknowledging
  rw [here] at receiver acknowledging
  have found := receiver.found rfl
  have fits : s.arrived ≤ s.received+numBuf :=
    order.delivered.trans (order.room.trans (Nat.add_le_add_right (order.reported.trans order.taken) numBuf))
  rw [receiver.ptr]
  refine {valid with
    order := {order with taken := le_succ_of_le order.taken,found := found}
    data := data_kept valid.data fun _ _ other => by simp [other]
    window := window_taken valid.window found fits
    receiver := ⟨step_mod positive _,by simp [receiver.length],?_,nofun⟩
    acknowledging := ⟨le_succ_of_le acknowledging.asked,by simpa [added] using acknowledging.count,
      acknowledging.reported.goes nofun⟩}
  exact receipts_taken receiver (valid.window.contents s.received order.taken found)

theorem sink_run (positive : 1 ≤ numBuf) (occupied expired : Bool) :
    Valid words numBuf (runSink words numBuf occupied expired s) := by
  have acknowledging := valid.acknowledging
  have free (ready : (s.sink.dma.done && !occupied) = true) : s.sink.dma = .none :=
    (Transfer.done_iff _).mp (Bool.and_eq_true_iff.mp ready).1
  have ends (nothing : added s.sink.pc = 0) : Valid words numBuf (goes s .idle) :=
    goes_step valid .idle (valid.order.taken) nothing.symm nofun nofun
  have quiet (check : checked s.sink.pc = true) : s.sink.dma = .none := by
    cases acknowledging.reported with
    | arrived none _ => exact none
    | underway _ wrong =>
      rw [check] at wrong
      cases wrong
  have count := acknowledging.count
  have asked := acknowledging.asked
  unfold runSink
  cases here : s.sink.pc with
  | idle => exact valid
  | check =>
    simp only
    split
    case isTrue => exact ends (by rw [here]; rfl)
    case isFalse there =>
      refine goes_step valid .clear valid.order.taken (by rw [here]; rfl) nofun fun _ => ?_
      refine Nat.lt_of_not_le fun nothing => there ?_
      rw [valid.receiver.ptr]
      exact valid.window.clear s.received nothing (Nat.lt_add_of_pos_right positive)
  | clear => exact clear_step valid positive here
  | nbDone =>
    rw [here] at asked
    simp only
    split
    case isTrue ready => exact goes_step valid .nbCount asked (by rw [here]; rfl) (fun _ => free ready) nofun
    case isFalse => exact ends (by rw [here]; rfl)
  | nbCount =>
    rw [here] at asked count quiet
    refine count_step valid .nbTransfer _ asked ?_ (quiet rfl) nofun
    rw [count]
    exact Nat.mod_add_mod _ _ _
  | nbTransfer =>
    rw [here] at asked count
    simp only
    split
    case isTrue => exact acknowledge_step valid 1 asked count
    case isFalse => exact goes_step valid .nbUndo asked (by rw [here]; rfl) (fun _ => quiet (by rw [here]; rfl)) nofun
  | nbUndo =>
    rw [here] at count quiet
    refine count_step valid .idle _ valid.order.taken ?_ (quiet rfl) nofun
    rw [count]
    exact difference_undo s.acked 1
  | ackWait num =>
    rw [here] at asked
    simp only
    split
    case isTrue => exact ends (by rw [here]; rfl)
    case isFalse =>
      split
      case isTrue ready => exact goes_step valid (.ackCount num) asked (by rw [here]; rfl) (fun _ => free ready) nofun
      case isFalse => exact valid
  | ackCount num =>
    rw [here] at asked count quiet
    refine count_step valid (.ackTransfer num) _ asked ?_ (quiet rfl) nofun
    rw [count]
    exact Nat.mod_add_mod _ _ _
  | ackTransfer num =>
    rw [here] at asked count
    simp only
    split
    case isTrue => exact goes_step valid (.ackUndo num) asked (by rw [here]; rfl) (fun _ => quiet (by rw [here]; rfl)) nofun
    case isFalse =>
      split
      case isTrue => exact acknowledge_step valid num asked count
      case isFalse => exact valid
  | ackUndo num =>
    rw [here] at count quiet
    refine count_step valid .idle _ valid.order.taken ?_ (quiet rfl) nofun
    rw [count]
    exact difference_undo s.acked num

theorem fetch_sink : Valid words numBuf (apply words numBuf s .fetchSink) := by
  have acknowledging := valid.acknowledging
  refine {valid with acknowledging := {acknowledging with reported := ?_}}
  cases acknowledging.reported with
  | arrived none same =>
    refine .arrived ?_ same
    change s.sink.dma.fetch _ = .none
    rw [none]
    rfl
  | underway carries unchecked =>
    refine .underway ?_ unchecked
    have nothing : added s.sink.pc = 0 := by
      cases here : s.sink.pc <;> first | rfl | (rw [here] at unchecked; cases unchecked)
    have counted : s.sink.memory .recvCount = s.acked % 2^32 := by rw [acknowledging.count,nothing,add_zero]
    change Carries (s.sink.dma.fetch s.sink.memory) _ _ (s.acked % 2^32)
    rw [← counted] at carries ⊢
    exact carries.fetch

theorem deliver_sink : Valid words numBuf (apply words numBuf s .deliverSink) := by
  cases arrival : s.sink.dma.arrival with
  | none =>
    simp only [apply,arrival]
    exact valid
  | some word =>
    simp only [apply,arrival]
    have order := valid.order
    have acknowledging := valid.acknowledging
    cases acknowledging.reported with
    | arrived none _ =>
      rw [none] at arrival
      cases arrival
    | underway carries unchecked =>
      obtain ⟨rfl,none⟩ := carries.arrives arrival
      refine {valid with
        order := {order with reported := le_rfl,room := ?_},sender := ?_,known := by simp
        data := data_source valid.data fun _ => by simp
        acknowledging := {acknowledging with reported := .arrived none rfl}}
      · exact order.room.trans (Nat.add_le_add_right order.reported numBuf)
      · simpa using valid.sender.later order.reported
end

theorem valid_start (positive : 1 ≤ numBuf) (begun : Initial words numBuf s) : Valid words numBuf s := by
  obtain ⟨⟨_,_,_,_,_,_,_⟩,⟨_,_,_,_,_⟩,_,_,_,_,_,_,_,_⟩ := s
  obtain ⟨⟨rfl,rfl,rfl,rfl,rfl,known,rfl⟩,⟨rfl,rfl,recvCount,rfl⟩,flags,rfl,rfl,rfl,rfl,rfl,rfl,rfl⟩ := begun
  exact {
    order := ⟨le_rfl,le_rfl,le_rfl,le_rfl,zero_le _⟩
    sender := .idle rfl
    count := rfl
    ptr := (zero_mod _).symm
    shadow := rfl
    known := known
    data := .rest rfl rfl
    apart := .past rfl
    window := ⟨.empty le_rfl,.empty le_rfl,fun k _ _ => flags _ (mod_lt k positive)⟩
    receiver := ⟨(zero_mod _).symm,rfl,nofun,nofun⟩
    acknowledging := ⟨zero_le _,recvCount,.arrived rfl rfl⟩}

theorem valid_step (positive : 1 ≤ numBuf) (fits : numBuf < 2^32) (valid : Valid words numBuf s) (action : Action)
    (allowed : Allowed s action) : Valid words numBuf (apply words numBuf s action) := by
  have calls (pc : SinkPc) (asked : s.acked+asks pc ≤ s.received) (nothing : added pc = 0) (unchecked : checked pc = false)
      (other : pc ≠ .clear) : Valid words numBuf (if s.sink.pc = .idle then goes s pc else s) := by
    split
    case isTrue here =>
      exact goes_step valid pc asked (by rw [here]; exact nothing) (fun check => by rw [unchecked] at check; cases check)
        fun clear => absurd clear other
    case isFalse => exact valid
  cases action with
  | fill word value => exact fill_step valid word value
  | send => exact send_step valid
  | runSource occupied => exact source_run valid positive fits occupied
  | receive => exact calls .check valid.order.taken rfl rfl nofun
  | nback => exact calls .nbDone allowed rfl rfl nofun
  | ackN num => exact calls (.ackWait num) allowed rfl rfl nofun
  | runSink occupied expired => exact sink_run valid positive occupied expired
  | fetchSource => exact fetch_source valid
  | fetchSink => exact fetch_sink valid
  | deliverSource => exact deliver_source valid
  | deliverSink => exact deliver_sink valid

theorem reached_valid (positive : 1 ≤ numBuf) (fits : numBuf < 2^32) (path : Reached (system words numBuf) s) :
    Valid words numBuf s :=
  path.invariant (fun _ => valid_start positive)
    (fun _ action valid allowed => valid_step positive fits valid action allowed)
end Steps

-- Between the start of a transfer and the next statement send_count does not count its message.
def started : SendPc → Nat
  | .advance => 1
  | _ => 0

section Guarantees
variable {words numBuf : Nat} {s : State} (valid : Valid words numBuf s)
include valid

end Guarantees

def created : State where
  source := ⟨.idle,fun _ => 0,0,0,false,true,.none⟩
  sink := ⟨.idle,fun _ => 0,0,0,.none⟩
  sent := []
  returned := 0
  arrived := 0
  received := 0
  acked := 0
  seen := 0
  origin := false
  receipts := []

theorem created_reached (words numBuf : Nat) : Reached (system words numBuf) created :=
  .start ⟨⟨rfl,rfl,rfl,rfl,rfl,rfl,rfl⟩,⟨rfl,rfl,rfl,rfl⟩,fun _ _ => rfl,rfl,rfl,rfl,rfl,rfl,rfl,rfl⟩

instance (s : State) (action : Action) : Decidable (Allowed s action) :=
  match action with
  | .nback => inferInstanceAs (Decidable (s.acked+1 ≤ s.received))
  | .ackN num => inferInstanceAs (Decidable (s.acked+num ≤ s.received))
  | .fill _ _ | .send | .runSource _ | .receive | .runSink _ _ | .fetchSource | .fetchSink | .deliverSource
  | .deliverSink => isTrue trivial

instance (words numBuf : Nat) (s : State) (action : Action) : Decidable ((system words numBuf).admits s action) :=
  inferInstanceAs (Decidable (Allowed s action))

-- A message of one word is sent, received and acknowledged, and the second one uses the same receive buffer.
def exchange (value : Nat) : List Action :=
  [.fill 0 value,.send,.runSource false,.runSource false,.runSource false,.runSource false,.fetchSource,.fetchSource,
    .deliverSource,.deliverSource,.receive,.runSink false false,.runSink false false]

def acknowledged : List Action :=
  [.ackN 1,.runSink false false,.runSink false false,.runSink false false,.fetchSink,.deliverSink]

end Patmos.QueuingPort
