import Patmos.QueuingPort
namespace Patmos.QueuingSetup
open Transition NocDma Numbered QueuingPort Function Nat

inductive PortType where
  | sampling
  | queuing
  deriving DecidableEq, Repr

-- chan_info of one channel. An id is -1, and an address NULL, until it is published.
structure ChanInfo where
  portType : PortType
  srcId : Option Nat
  sinkId : Option Nat
  srcAddr : Option Nat
  sinkAddr : Option Nat

-- The statement of mp_create_qport(SOURCE) or of the following mp_init_ports that comes next.
inductive SourceSetup where
  | portType
  | srcAddr
  | srcId
  | sendRecvCount
  | sendCount
  | sendPtr
  | writeBuf
  | shadowWriteBuf
  | waitSink
  | recvAddr
  | remote
  | ready
  deriving DecidableEq, Repr

-- The statement of mp_create_qport(SINK) or of the following mp_init_ports that comes next.
inductive SinkSetup where
  | portType
  | sinkAddr
  | sinkId
  | readBuf
  | recvPtr
  | recvCount
  | flag (i : Nat)
  | waitSource
  | sendRecvCount
  | remote
  | ready
  deriving DecidableEq, Repr

structure Channel where
  words : Nat
  numBuf : Nat
  srcId : Nat
  sinkId : Nat
  srcAddr : Nat
  sinkAddr : Nat

-- The fields of the port descriptors that mp_init_ports copies from chan_info are beside the ports.
structure State where
  port : QueuingPort.State
  chan : ChanInfo
  source : SourceSetup
  sink : SinkSetup
  recvAddr : Option Nat
  sourceRemote : Option Nat
  sendRecvCount : Option Nat
  sinkRemote : Option Nat

def State.withSource (s : State) (c : Source) : State := {s with port := {s.port with source := c}}

def State.withSink (s : State) (c : Sink) : State := {s with port := {s.port with sink := c}}

def setupSource (ch : Channel) (s : State) : State :=
  match s.source with
  | .portType => {s with source := .srcAddr,chan := {s.chan with portType := .queuing}}
  | .srcAddr => {s with source := .srcId,chan := {s.chan with srcAddr := some ch.srcAddr}}
  | .srcId => {s with source := .sendRecvCount,chan := {s.chan with srcId := some ch.srcId}}
  | .sendRecvCount =>
    {s.withSource {s.port.source with memory := update s.port.source.memory .sendRecvCount 0} with
      source := .sendCount}
  | .sendCount => {s.withSource {s.port.source with sendCount := 0} with source := .sendPtr}
  | .sendPtr => {s.withSource {s.port.source with sendPtr := 0} with source := .writeBuf}
  | .writeBuf => {s.withSource {s.port.source with writeBuf := false} with source := .shadowWriteBuf}
  | .shadowWriteBuf => {s.withSource {s.port.source with shadowWriteBuf := true} with source := .waitSink}
  | .waitSink => if s.chan.sinkId = none then s else {s with source := .recvAddr}
  | .recvAddr =>
    {s with source := .remote,recvAddr := if s.chan.portType = .queuing then s.chan.sinkAddr else s.recvAddr}
  | .remote =>
    {s with source := .ready,sourceRemote := if s.chan.portType = .queuing then s.chan.sinkId else s.sourceRemote}
  | .ready => s

def setupSink (ch : Channel) (s : State) : State :=
  match s.sink with
  | .portType => {s with sink := .sinkAddr,chan := {s.chan with portType := .queuing}}
  | .sinkAddr => {s with sink := .sinkId,chan := {s.chan with sinkAddr := some ch.sinkAddr}}
  | .sinkId => {s with sink := .readBuf,chan := {s.chan with sinkId := some ch.sinkId}}
  | .readBuf => {s.withSink {s.port.sink with readBuf := 0} with sink := .recvPtr}
  | .recvPtr => {s.withSink {s.port.sink with recvPtr := 0} with sink := .recvCount}
  | .recvCount =>
    {s.withSink {s.port.sink with memory := update s.port.sink.memory .recvCount 0} with sink := .flag 0}
  | .flag i =>
    if i < ch.numBuf then
      {s.withSink {s.port.sink with memory := update s.port.sink.memory (.buffer i ch.words) flagInvalid} with
        sink := .flag (i+1)}
    else {s with sink := .waitSource}
  | .waitSource => if s.chan.srcId = none then s else {s with sink := .sendRecvCount}
  | .sendRecvCount =>
    {s with sink := .remote,sendRecvCount := if s.chan.portType = .queuing then s.chan.srcAddr else s.sendRecvCount}
  | .remote =>
    {s with sink := .ready,sinkRemote := if s.chan.portType = .queuing then s.chan.srcId else s.sinkRemote}
  | .ready => s

inductive Action where
  | setupSource
  | setupSink
  | port (action : QueuingPort.Action)

def apply (ch : Channel) (s : State) : Action → State
  | .setupSource => setupSource ch s
  | .setupSink => setupSink ch s
  | .port action => {s with port := QueuingPort.apply ch.words ch.numBuf s.port action}

inductive Side where
  | source
  | sink
  | network
  deriving DecidableEq, Repr

def side : QueuingPort.Action → Side
  | .fill _ _ | .send | .runSource _ => .source
  | .receive | .nback | .ackN _ | .runSink _ _ => .sink
  | .fetchSource | .fetchSink | .deliverSource | .deliverSink => .network

def Allowed (s : State) : Action → Prop
  | .port action => QueuingPort.Allowed s.port action ∧ (side action = .source → s.source = .ready) ∧
      (side action = .sink → s.sink = .ready)
  | _ => True

structure Initial (s : State) : Prop where
  pcs : s.source = .portType ∧ s.sink = .portType
  chan : s.chan.srcId = none ∧ s.chan.sinkId = none ∧ s.chan.srcAddr = none ∧ s.chan.sinkAddr = none
  source : s.port.source.pc = .idle ∧ s.port.source.dma = .none
  sink : s.port.sink.pc = .idle ∧ s.port.sink.dma = .none
  nothing : s.port.sent = [] ∧ s.port.returned = 0 ∧ s.port.arrived = 0 ∧ s.port.received = 0 ∧ s.port.acked = 0 ∧
    s.port.seen = 0 ∧ s.port.receipts = []

def system (ch : Channel) : System State Action where
  start := Initial
  admits s action := Allowed s action
  next s action := apply ch s action

def created : SinkSetup → Bool
  | .waitSource | .sendRecvCount | .remote | .ready => true
  | _ => false

-- The source leaves its waiting loop only after the sink port is created.
def Awaits (s : State) : Action → Prop
  | .setupSource => s.source = .waitSink → s.chan.sinkId ≠ none → created s.sink = true
  | _ => True

section View
def SourceSetup.number : SourceSetup → Nat
  | .portType => 0
  | .srcAddr => 1
  | .srcId => 2
  | .sendRecvCount => 3
  | .sendCount => 4
  | .sendPtr => 5
  | .writeBuf => 6
  | .shadowWriteBuf => 7
  | .waitSink => 8
  | .recvAddr => 9
  | .remote => 10
  | .ready => 11

def SinkSetup.number : SinkSetup → Nat
  | .portType => 0
  | .sinkAddr => 1
  | .sinkId => 2
  | .readBuf => 3
  | .recvPtr => 4
  | .recvCount => 5
  | .flag _ => 6
  | .waitSource => 7
  | .sendRecvCount => 8
  | .remote => 9
  | .ready => 10

def cleared (numBuf : Nat) : SinkSetup → Nat
  | .flag i => i
  | .waitSource | .sendRecvCount | .remote | .ready => numBuf
  | _ => 0

def unset (ch : Channel) (pc : SinkSetup) : SinkWord → Bool
  | .buffer index word => word == ch.words && decide (cleared ch.numBuf pc ≤ index) && decide (index < ch.numBuf)
  | .recvCount => decide (pc.number ≤ 5)

-- The ports with every statement of mp_create_qport that is still to come already done.
def sourceView (pc : SourceSetup) (c : Source) : Source :=
  {c with
    memory := if pc.number ≤ 3 then update c.memory .sendRecvCount 0 else c.memory
    sendCount := if pc.number ≤ 4 then 0 else c.sendCount
    sendPtr := if pc.number ≤ 5 then 0 else c.sendPtr
    writeBuf := if pc.number ≤ 6 then false else c.writeBuf
    shadowWriteBuf := if pc.number ≤ 7 then true else c.shadowWriteBuf}

def sinkView (ch : Channel) (pc : SinkSetup) (c : Sink) : Sink :=
  {c with
    recvPtr := if pc.number ≤ 4 then 0 else c.recvPtr
    memory := fun word => if unset ch pc word then 0 else c.memory word
    readBuf := if pc.number ≤ 3 then 0 else c.readBuf}

def view (ch : Channel) (s : State) : QueuingPort.State :=
  {s.port with source := sourceView s.source s.port.source,sink := sinkView ch s.sink s.port.sink}

variable {ch : Channel} {s : State}

theorem setupSource_view (ch : Channel) (s : State) : view ch (setupSource ch s) = view ch s := by
  unfold setupSource
  cases here : s.source with
  | waitSink =>
    simp only
    split
    case isTrue => rfl
    case isFalse => simp [view,sourceView,here,SourceSetup.number]
  | ready => rfl
  | _ => simp [view,sourceView,here,SourceSetup.number,State.withSource]

theorem unset_none (flags : ch.numBuf ≤ cleared ch.numBuf pc) (count : 5 < pc.number) (word : SinkWord) :
    unset ch pc word = false := by
  cases word with
  | buffer index word =>
    have outside : ¬(cleared ch.numBuf pc ≤ index ∧ index < ch.numBuf) := fun both => by omega
    simp only [unset,Bool.and_assoc,Bool.and_eq_false_iff,decide_eq_false_iff_not]
    exact .inr (not_and_or.mp outside)
  | recvCount => exact decide_eq_false count.not_ge

theorem sinkView_cleared (flags : ch.numBuf ≤ cleared ch.numBuf pc) (count : 5 < pc.number) (c : Sink) :
    sinkView ch pc c = c := by
  have same : (fun word => if unset ch pc word then 0 else c.memory word) = c.memory :=
    funext fun word => if_neg (by rw [unset_none flags count]; exact Bool.false_ne_true)
  unfold sinkView
  rw [same,if_neg (by omega),if_neg (by omega)]

theorem sinkView_created (done : created pc = true) (c : Sink) : sinkView ch pc c = c := by
  cases pc with
  | waitSource | sendRecvCount | remote | ready => exact sinkView_cleared le_rfl (Nat.lt_of_sub_eq_succ rfl) c
  | _ => cases done

theorem sinkView_ready (ready : pc = .ready) (c : Sink) : sinkView ch pc c = c := sinkView_created (by rw [ready]; rfl) c

theorem setupSink_view (ch : Channel) (s : State) : view ch (setupSink ch s) = view ch s := by
  unfold setupSink
  cases here : s.sink with
  | recvCount =>
    have same : (fun word => if unset ch (.flag 0) word then 0
        else update s.port.sink.memory .recvCount 0 word) =
        fun word => if unset ch .recvCount word then 0 else s.port.sink.memory word := by
      funext word
      cases word with
      | buffer index word => simp [unset,cleared]
      | recvCount => simp [unset,SinkSetup.number]
    simpa [view,sinkView,here,SinkSetup.number,State.withSink] using same
  | flag i =>
    simp only
    split
    case isTrue inside =>
      have same : (fun word => if unset ch (.flag (i+1)) word then 0
          else update s.port.sink.memory (.buffer i ch.words) flagInvalid word) =
          fun word => if unset ch (.flag i) word then 0 else s.port.sink.memory word := by
        funext word
        cases word with
        | buffer index word =>
          by_cases flag : word = ch.words
          · rcases lt_trichotomy index i with before | rfl | after
            · have other : index ≠ i := before.ne
              simp [unset,cleared,other,not_le.mpr before,not_le.mpr (lt_succ_of_lt before)]
            · simp [unset,cleared,flag,inside,flagInvalid]
            · have other : index ≠ i := after.ne'
              simp [unset,cleared,other,after.le,succ_le_of_lt after]
          · simp [unset,flag]
        | recvCount => simp [unset,SinkSetup.number]
      simpa [view,sinkView,here,SinkSetup.number,State.withSink] using same
    case isFalse outside =>
      have all : ch.numBuf ≤ cleared ch.numBuf (.flag i) := not_lt.mp outside
      simp only [view,here]
      rw [sinkView_cleared all (Nat.lt_of_sub_eq_succ rfl)]
      rw [sinkView_created rfl]
  | waitSource =>
    simp only
    split
    case isTrue => rfl
    case isFalse =>
      simp only [view,here]
      rw [sinkView_created rfl,sinkView_created rfl]
  | sendRecvCount | remote =>
    simp only [view,here]
    rw [sinkView_created rfl,sinkView_created rfl]
  | ready => rfl
  | portType | sinkAddr | sinkId | readBuf | recvPtr =>
    simp [view,sinkView,here,SinkSetup.number,State.withSink,unset,cleared]

theorem view_ready (source : s.source = .ready) (sink : created s.sink = true) : view ch s = s.port := by
  simp [view,sinkView_created sink,source,sourceView,SourceSetup.number]

theorem initial_view (begun : Initial s) : QueuingPort.Initial ch.words ch.numBuf (view ch s) := by
  obtain ⟨⟨first,start⟩,-,⟨idle,free⟩,⟨waiting,quiet⟩,nothing⟩ := begun
  refine ⟨?_,?_,fun index inside => ?_,nothing⟩
  · simp [view,sourceView,first,SourceSetup.number,idle,free]
  · simp [view,sinkView,start,SinkSetup.number,unset,waiting,quiet]
  · simp [view,sinkView,start,unset,cleared,inside,flagInvalid]
end View

section Quiet
variable {ch : Channel} {s : State}

def published (value number : Nat) (statement : Nat) : Option Nat := if statement < number then some value else none

-- What chan_info has when the two ports are at these statements.
structure Published (ch : Channel) (chan : ChanInfo) (source sink : Nat) : Prop where
  portType : 0 < source ∨ 0 < sink → chan.portType = .queuing
  srcAddr : chan.srcAddr = published ch.srcAddr source 1
  srcId : chan.srcId = published ch.srcId source 2
  sinkAddr : chan.sinkAddr = published ch.sinkAddr sink 1
  sinkId : chan.sinkId = published ch.sinkId sink 2

theorem published_some (reached : statement < number) (value : Nat) : published value number statement = some value :=
  if_pos reached

-- A port that is not set up does nothing yet.
structure Quiet (ch : Channel) (s : State) : Prop where
  source : s.source ≠ .ready → s.port.source.pc = .idle ∧ s.port.source.dma = .none ∧ s.port.sent = []
  sink : s.sink ≠ .ready → s.port.sink.pc = .idle ∧ s.port.sink.dma = .none
  waited : 8 < s.source.number → created s.sink = true
  heard : 7 < s.sink.number → 2 < s.source.number
  chan : Published ch s.chan s.source.number s.sink.number
  recvAddr : 9 < s.source.number → s.recvAddr = some ch.sinkAddr
  sourceRemote : 10 < s.source.number → s.sourceRemote = some ch.sinkId
  sendRecvCount : 8 < s.sink.number → s.sendRecvCount = some ch.srcAddr
  sinkRemote : 9 < s.sink.number → s.sinkRemote = some ch.srcId

theorem early {P : Prop} (below : ble number statement = true) (late : statement < number) : P :=
  absurd late (not_lt.mpr (le_of_ble_eq_true below))

theorem quiet_start (begun : Initial s) : Quiet ch s := by
  obtain ⟨_,⟨_,_,_,_,_⟩,_,_,_,_,_,_⟩ := s
  obtain ⟨⟨rfl,rfl⟩,⟨rfl,rfl,rfl,rfl⟩,⟨idle,free⟩,sink,sent,-⟩ := begun
  exact ⟨fun _ => ⟨idle,free,sent⟩,fun _ => sink,early rfl,early rfl,
    ⟨(·.elim (early rfl) (early rfl)),rfl,rfl,rfl,rfl⟩,early rfl,early rfl,early rfl,early rfl⟩

theorem created_number (done : created pc = true) : 2 < pc.number := by
  cases pc <;> first | exact Nat.lt_of_sub_eq_succ rfl | cases done

theorem setupSource_chan (chan : Published ch s.chan s.source.number s.sink.number) :
    Published ch (setupSource ch s).chan (setupSource ch s).source.number s.sink.number := by
  have unchanged := chan
  obtain ⟨portType,srcAddr,srcId,sinkAddr,sinkId⟩ := chan
  unfold setupSource
  cases here : s.source with
  | ready => exact unchanged
  | portType =>
    rw [here] at srcAddr srcId
    exact ⟨fun _ => rfl,srcAddr,srcId,sinkAddr,sinkId⟩
  | srcAddr =>
    rw [here] at portType srcId
    exact ⟨fun _ => portType (.inl zero_lt_one),rfl,srcId,sinkAddr,sinkId⟩
  | srcId =>
    rw [here] at portType srcAddr
    exact ⟨fun _ => portType (.inl Nat.zero_lt_two),srcAddr,rfl,sinkAddr,sinkId⟩
  | waitSink =>
    simp only
    split
    case isTrue => exact unchanged
    case isFalse =>
      rw [here] at portType srcAddr srcId
      exact ⟨fun _ => portType (.inl (succ_pos _)),srcAddr,srcId,sinkAddr,sinkId⟩
  | _ =>
    rw [here] at portType srcAddr srcId
    exact ⟨fun _ => portType (.inl (succ_pos _)),srcAddr,srcId,sinkAddr,sinkId⟩

theorem setupSink_chan (chan : Published ch s.chan s.source.number s.sink.number) :
    Published ch (setupSink ch s).chan s.source.number (setupSink ch s).sink.number := by
  have unchanged := chan
  obtain ⟨portType,srcAddr,srcId,sinkAddr,sinkId⟩ := chan
  unfold setupSink
  cases here : s.sink with
  | ready => exact unchanged
  | portType =>
    rw [here] at sinkAddr sinkId
    exact ⟨fun _ => rfl,srcAddr,srcId,sinkAddr,sinkId⟩
  | sinkAddr =>
    rw [here] at portType sinkId
    exact ⟨fun _ => portType (.inr zero_lt_one),srcAddr,srcId,rfl,sinkId⟩
  | sinkId =>
    rw [here] at portType sinkAddr
    exact ⟨fun _ => portType (.inr Nat.zero_lt_two),srcAddr,srcId,sinkAddr,rfl⟩
  | flag i =>
    rw [here] at portType sinkAddr sinkId
    simp only
    split
    all_goals exact ⟨fun _ => portType (.inr (succ_pos _)),srcAddr,srcId,sinkAddr,sinkId⟩
  | waitSource =>
    simp only
    split
    case isTrue => exact unchanged
    case isFalse =>
      rw [here] at portType sinkAddr sinkId
      exact ⟨fun _ => portType (.inr (succ_pos _)),srcAddr,srcId,sinkAddr,sinkId⟩
  | _ =>
    rw [here] at portType sinkAddr sinkId
    exact ⟨fun _ => portType (.inr (succ_pos _)),srcAddr,srcId,sinkAddr,sinkId⟩

theorem setupSource_port (ch : Channel) (s : State) : (setupSource ch s).port.source.pc = s.port.source.pc ∧
    (setupSource ch s).port.source.dma = s.port.source.dma ∧ (setupSource ch s).port.sent = s.port.sent ∧
    (setupSource ch s).port.sink = s.port.sink ∧ (setupSource ch s).sink = s.sink ∧
    (setupSource ch s).sendRecvCount = s.sendRecvCount ∧ (setupSource ch s).sinkRemote = s.sinkRemote := by
  unfold setupSource
  cases s.source with
  | waitSink =>
    simp only
    split <;> exact ⟨rfl,rfl,rfl,rfl,rfl,rfl,rfl⟩
  | _ => exact ⟨rfl,rfl,rfl,rfl,rfl,rfl,rfl⟩

theorem setupSink_port (ch : Channel) (s : State) : (setupSink ch s).port.sink.pc = s.port.sink.pc ∧
    (setupSink ch s).port.sink.dma = s.port.sink.dma ∧ (setupSink ch s).port.sent = s.port.sent ∧
    (setupSink ch s).port.source = s.port.source ∧ (setupSink ch s).source = s.source ∧
    (setupSink ch s).recvAddr = s.recvAddr ∧ (setupSink ch s).sourceRemote = s.sourceRemote := by
  unfold setupSink
  cases s.sink with
  | flag _ | waitSource =>
    simp only
    split <;> exact ⟨rfl,rfl,rfl,rfl,rfl,rfl,rfl⟩
  | _ => exact ⟨rfl,rfl,rfl,rfl,rfl,rfl,rfl⟩

theorem setupSource_copies (quiet : Quiet ch s) (awaits : Awaits s .setupSource) :
    (8 < (setupSource ch s).source.number → created s.sink = true) ∧
    (9 < (setupSource ch s).source.number → (setupSource ch s).recvAddr = some ch.sinkAddr) ∧
    (10 < (setupSource ch s).source.number → (setupSource ch s).sourceRemote = some ch.sinkId) := by
  obtain ⟨-,-,waited,-,chan,recvAddr,sourceRemote,-,-⟩ := quiet
  unfold setupSource
  cases here : s.source with
  | ready => exact ⟨waited,recvAddr,sourceRemote⟩
  | waitSink =>
    simp only
    split
    case isTrue => exact ⟨waited,recvAddr,sourceRemote⟩
    case isFalse id =>
      exact ⟨fun _ => awaits here id,early rfl,early rfl⟩
  | recvAddr =>
    rw [here] at waited chan
    have done := waited (by decide)
    have address := chan.sinkAddr
    rw [published_some (lt_of_succ_lt (created_number done))] at address
    refine ⟨fun _ => done,fun _ => ?_,early rfl⟩
    exact (if_pos (chan.portType (.inl (succ_pos _)))).trans address
  | remote =>
    rw [here] at waited chan recvAddr
    have done := waited (by decide)
    have id := chan.sinkId
    rw [published_some (created_number done)] at id
    refine ⟨fun _ => done,fun _ => recvAddr (by decide),fun _ => ?_⟩
    exact (if_pos (chan.portType (.inl (succ_pos _)))).trans id
  | _ => exact ⟨early rfl,early rfl,early rfl⟩

theorem setupSource_quiet (quiet : Quiet ch s) (awaits : Awaits s .setupSource) : Quiet ch (setupSource ch s) := by
  obtain ⟨pc,dma,sent,port,setup,count,remote⟩ := setupSource_port ch s
  obtain ⟨waited,recvAddr,sourceRemote⟩ := setupSource_copies quiet awaits
  have grows : s.source.number ≤ (setupSource ch s).source.number := by
    unfold setupSource
    cases here : s.source with
    | waitSink =>
      simp only
      split
      case isTrue => rw [here]
      case isFalse => exact le_succ _
    | ready => exact (congrArg SourceSetup.number here).ge
    | _ => exact le_succ _
  have begun : (setupSource ch s).source ≠ .ready → s.source ≠ .ready := by
    intro before ready
    simp only [setupSource,ready] at before
    exact before rfl
  refine ⟨fun before => ?_,?_,?_,?_,?_,recvAddr,sourceRemote,?_,?_⟩
  · rw [pc,dma,sent]
    exact quiet.source (begun before)
  · rw [setup,port]
    exact quiet.sink
  · rw [setup]
    exact waited
  · rw [setup]
    exact fun late => lt_of_lt_of_le (quiet.heard late) grows
  · rw [setup]
    exact setupSource_chan quiet.chan
  · rw [setup,count]
    exact quiet.sendRecvCount
  · rw [setup,remote]
    exact quiet.sinkRemote

theorem setupSink_copies (quiet : Quiet ch s) :
    (7 < (setupSink ch s).sink.number → 2 < s.source.number) ∧
    (8 < (setupSink ch s).sink.number → (setupSink ch s).sendRecvCount = some ch.srcAddr) ∧
    (9 < (setupSink ch s).sink.number → (setupSink ch s).sinkRemote = some ch.srcId) := by
  obtain ⟨-,-,-,heard,chan,-,-,sendRecvCount,sinkRemote⟩ := quiet
  unfold setupSink
  cases here : s.sink with
  | ready => exact ⟨heard,sendRecvCount,sinkRemote⟩
  | waitSource =>
    simp only
    split
    case isTrue => exact ⟨heard,sendRecvCount,sinkRemote⟩
    case isFalse id =>
      refine ⟨fun _ => Nat.lt_of_not_le fun below => id ?_,early rfl,early rfl⟩
      exact chan.srcId.trans (if_neg below.not_gt)
  | sendRecvCount =>
    rw [here] at heard chan
    have done := heard (by decide)
    have address := chan.srcAddr
    rw [published_some (Nat.lt_of_succ_lt done)] at address
    refine ⟨fun _ => done,fun _ => ?_,early rfl⟩
    exact (if_pos (chan.portType (.inr (Nat.succ_pos _)))).trans address
  | remote =>
    rw [here] at heard chan sendRecvCount
    have done := heard (by decide)
    have id := chan.srcId
    rw [published_some done] at id
    refine ⟨fun _ => done,fun _ => sendRecvCount (by decide),fun _ => ?_⟩
    exact (if_pos (chan.portType (.inr (Nat.succ_pos _)))).trans id
  | flag i =>
    simp only
    split
    all_goals exact ⟨early rfl,early rfl,early rfl⟩
  | _ => exact ⟨early rfl,early rfl,early rfl⟩

theorem setupSink_quiet (quiet : Quiet ch s) : Quiet ch (setupSink ch s) := by
  obtain ⟨pc,dma,sent,port,setup,address,remote⟩ := setupSink_port ch s
  obtain ⟨heard,sendRecvCount,sinkRemote⟩ := setupSink_copies quiet
  have begun : (setupSink ch s).sink ≠ .ready → s.sink ≠ .ready := by
    intro before ready
    simp only [setupSink,ready] at before
    exact before rfl
  have stays (done : created s.sink = true) : created (setupSink ch s).sink = true := by
    unfold setupSink
    cases here : s.sink with
    | waitSource =>
      simp only
      split
      case isTrue => exact done
      case isFalse => rfl
    | sendRecvCount | remote => rfl
    | ready => exact done
    | _ =>
      rw [here] at done
      cases done
  refine ⟨?_,fun before => ?_,?_,?_,?_,?_,?_,sendRecvCount,sinkRemote⟩
  · rw [setup,port,sent]
    exact quiet.source
  · rw [pc,dma]
    exact quiet.sink (begun before)
  · rw [setup]
    exact fun late => stays (quiet.waited late)
  · rw [setup]
    exact heard
  · rw [setup]
    exact setupSink_chan quiet.chan
  · rw [setup,address]
    exact quiet.recvAddr
  · rw [setup,remote]
    exact quiet.sourceRemote
end Quiet

section Simulation
variable {ch : Channel} {s : State} {words numBuf : Nat} {p : QueuingPort.State}

theorem sink_other (words numBuf : Nat) (p : QueuingPort.State) (sink : side action = .sink) (c : Source) (sent : List (Nat → Nat)) :
    QueuingPort.apply words numBuf {p with source := c,sent := sent} action =
      {QueuingPort.apply words numBuf p action with source := c,sent := sent} := by
  cases action with
  | fill _ _ | send | runSource _ | fetchSource | fetchSink | deliverSource | deliverSink => cases sink
  | receive | nback | ackN num =>
    simp only [QueuingPort.apply]
    split <;> rfl
  | runSink occupied expired =>
    simp only [QueuingPort.apply,QueuingPort.runSink]
    cases p.sink.pc with
    | idle | clear | nbCount | nbUndo | ackCount _ | ackUndo _ => rfl
    | check | nbDone | nbTransfer =>
      simp only
      split <;> rfl
    | ackWait num | ackTransfer num =>
      simp only
      split
      case isTrue => rfl
      case isFalse => split <;> rfl

theorem source_other (source : side action = .source) : (QueuingPort.apply words numBuf p action).sink = p.sink := by
  cases action with
  | receive | nback | ackN _ | runSink _ _ | fetchSource | fetchSink | deliverSource | deliverSink => cases source
  | fill _ _ | send =>
    simp only [QueuingPort.apply]
    split <;> rfl
  | runSource occupied =>
    simp only [QueuingPort.apply,QueuingPort.runSource]
    cases p.source.pc with
    | idle | flag | advance => rfl
    | room | transfer =>
      simp only
      split <;> rfl

theorem sink_keeps (words numBuf : Nat) (p : QueuingPort.State) (sink : side action = .sink) :
    (QueuingPort.apply words numBuf p action).source = p.source ∧ (QueuingPort.apply words numBuf p action).sent = p.sent := by
  have same := sink_other words numBuf p sink p.source p.sent
  have source := congrArg QueuingPort.State.source same
  have sent := congrArg QueuingPort.State.sent same
  exact ⟨source,sent⟩

def Follows (ch : Channel) (s : State) (action : QueuingPort.Action) : Prop :=
  view ch (apply ch s (.port action)) = QueuingPort.apply ch.words ch.numBuf (view ch s) action

theorem sink_view (sink : side action = .sink) (ready : s.sink = .ready) : Follows ch s action := by
  have other := sink_other ch.words ch.numBuf s.port sink (sourceView s.source s.port.source) s.port.sent
  have kept := sink_keeps ch.words ch.numBuf s.port sink
  simp only [Follows,view,apply,sinkView_ready ready,kept.1,kept.2]
  exact other.symm

theorem source_view (quiet : Quiet ch s) (ready : s.source = .ready) (action : QueuingPort.Action) : Follows ch s action := by
  have done := quiet.waited (by rw [ready]; decide)
  rw [Follows,view_ready ready done]
  exact view_ready ready done

theorem fetchSink_view (ready : s.sink = .ready) : Follows ch s .fetchSink := by
  simp only [Follows,view,apply,QueuingPort.apply,sinkView_ready ready]

theorem unsent (quiet : Quiet ch s) (valid : Valid ch.words ch.numBuf (view ch s)) (setup : s.source ≠ .ready) :
    s.port.arrived = 0 ∧ s.port.acked = 0 := by
  have order := valid.order
  have empty : (view ch s).sent = [] := (quiet.source setup).2.2
  rw [empty] at order
  exact ⟨le_zero.mp order.delivered,le_zero.mp (order.taken.trans (order.found.trans order.delivered))⟩

theorem deliverSink_view (quiet : Quiet ch s)
    (valid : Valid ch.words ch.numBuf (view ch s)) (ready : s.sink = .ready) (setup : s.source ≠ .ready) :
    Follows ch s .deliverSink := by
  have dma : (view ch s).sink.dma = s.port.sink.dma := rfl
  cases arrival : s.port.sink.dma.arrival with
  | none => simp only [Follows,view,apply,QueuingPort.apply,sinkView_ready ready,arrival]
  | some word =>
    cases valid.acknowledging.reported with
    | arrived none _ =>
      rw [dma] at none
      rw [none] at arrival
      cases arrival
    | underway carries _ =>
      obtain ⟨rfl,-⟩ := carries.arrives arrival
      have zero : (view ch s).acked % 2^32 = 0 := by
        change s.port.acked % 2^32 = 0
        rw [(unsent quiet valid setup).2,zero_mod]
      simp only [Follows,view,apply,QueuingPort.apply,sinkView_ready ready,arrival,sourceView]
      simp only [view] at zero
      rw [zero]
      split
      case isTrue => simp
      case isFalse => rfl

theorem source_rests (free : s.port.source.dma = .none) :
    apply ch s (.port .fetchSource) = s ∧ apply ch s (.port .deliverSource) = s := by
  obtain ⟨fetched,none⟩ := Transfer.rests s.port.source.memory free
  simp only [apply,QueuingPort.apply,fetched,none,and_self]

theorem sink_rests (free : s.port.sink.dma = .none) :
    apply ch s (.port .fetchSink) = s ∧ apply ch s (.port .deliverSink) = s := by
  obtain ⟨fetched,none⟩ := Transfer.rests s.port.sink.memory free
  simp only [apply,QueuingPort.apply,fetched,none,and_self]

-- A step of the ports is a step of the ports that are set up, unless there is nothing to transfer yet.
theorem port_view (quiet : Quiet ch s) (valid : Valid ch.words ch.numBuf (view ch s))
    (allowed : Allowed s (.port action)) : Follows ch s action ∨ apply ch s (.port action) = s := by
  obtain ⟨-,source,sink⟩ := allowed
  by_cases ready : s.source = .ready
  · exact .inl (source_view quiet ready action)
  · have free := (quiet.source ready).2.1
    cases action with
    | fill _ _ | send | runSource _ => exact absurd (source rfl) ready
    | receive | nback | ackN _ | runSink _ _ => exact .inl (sink_view rfl (sink rfl))
    | fetchSource => exact .inr (source_rests free).1
    | deliverSource => exact .inr (source_rests free).2
    | fetchSink =>
      by_cases open_ : s.sink = .ready
      · exact .inl (fetchSink_view open_)
      · exact .inr (sink_rests (quiet.sink open_).2).1
    | deliverSink =>
      by_cases open_ : s.sink = .ready
      · exact .inl (deliverSink_view quiet valid open_ ready)
      · exact .inr (sink_rests (quiet.sink open_).2).2

theorem port_quiet (quiet : Quiet ch s) (allowed : Allowed s (.port action)) : Quiet ch (apply ch s (.port action)) := by
  obtain ⟨-,source,sink⟩ := allowed
  refine ⟨fun setup => ?_,fun setup => ?_,quiet.waited,quiet.heard,quiet.chan,quiet.recvAddr,quiet.sourceRemote,
    quiet.sendRecvCount,quiet.sinkRemote⟩
  · have before := quiet.source setup
    cases action with
    | fill _ _ | send | runSource _ => exact absurd (source rfl) setup
    | receive | nback | ackN _ | runSink _ _ =>
      simp only [apply]
      rw [(sink_keeps _ _ _ rfl).1,(sink_keeps _ _ _ rfl).2]
      exact before
    | fetchSource =>
      rw [(source_rests before.2.1).1]
      exact before
    | fetchSink => exact before
    | deliverSource =>
      rw [(source_rests before.2.1).2]
      exact before
    | deliverSink =>
      simp only [apply,QueuingPort.apply]
      split <;> exact before
  · have before := quiet.sink setup
    cases action with
    | fill _ _ | send | runSource _ =>
      simp only [apply]
      rw [source_other rfl]
      exact before
    | receive | nback | ackN _ | runSink _ _ => exact absurd (sink rfl) setup
    | fetchSource => exact before
    | fetchSink =>
      rw [(sink_rests before.2).1]
      exact before
    | deliverSource =>
      simp only [apply,QueuingPort.apply]
      split <;> exact before
    | deliverSink =>
      rw [(sink_rests before.2).2]
      exact before

-- The channel with its set-up runs through states of ports that are set up.
def Simulated (ch : Channel) (s : State) : Prop :=
  Reached (QueuingPort.system ch.words ch.numBuf) (view ch s) ∧ Quiet ch s

theorem simulated_step (positive : 1 ≤ ch.numBuf) (fits : ch.numBuf < 2^32) (simulated : Simulated ch s)
    (allowed : Allowed s action) (awaits : Awaits s action) : Simulated ch (apply ch s action) := by
  obtain ⟨path,quiet⟩ := simulated
  cases action with
  | setupSource => exact ⟨by rw [apply,setupSource_view]; exact path,setupSource_quiet quiet awaits⟩
  | setupSink => exact ⟨by rw [apply,setupSink_view]; exact path,setupSink_quiet quiet⟩
  | port action =>
    refine ⟨?_,port_quiet quiet allowed⟩
    have keeps : QueuingPort.Allowed (view ch s) action := by cases action <;> exact allowed.1
    rcases port_view quiet (QueuingPort.reached_valid positive fits path) allowed with moves | rests
    · rw [moves]
      exact .step path keeps
    · rw [rests]
      exact path

theorem reached_simulated (positive : 1 ≤ ch.numBuf) (fits : ch.numBuf < 2^32)
    (path : Reached ((system ch).restrict Awaits) s) : Simulated ch s :=
  path.invariant (fun _ begun => ⟨.start (initial_view begun),quiet_start begun⟩)
    (fun _ _ simulated admitted => simulated_step positive fits simulated admitted.1 admitted.2)
end Simulation

section Messages
variable {ch : Channel} {s : State}

theorem arrived_available (valid : Valid ch.words ch.numBuf (view ch s)) (quiet : Quiet ch s)
    (waiting : s.port.received < s.port.arrived) :
    s.port.sink.memory (.buffer s.port.sink.recvPtr ch.words) = flagValid ∧
      Matches s.port.sent s.port.received ch.words fun i => s.port.sink.memory (.buffer s.port.sink.recvPtr i) := by
  have ready : s.source = .ready := by
    by_contra setup
    rw [(unsent quiet valid setup).1] at waiting
    exact not_lt_zero _ waiting
  rw [view_ready ready (quiet.waited (by rw [ready]; decide))] at valid
  rw [valid.receiver.ptr]
  exact ⟨valid.window.ready _ le_rfl waiting,valid.window.contents _ valid.order.taken waiting⟩
end Messages

theorem setup_keeps_messages (ch : Channel) (positive : 1 ≤ ch.numBuf) (fits : ch.numBuf < 2^32) {s : State}
    (path : Reached ((system ch).restrict Awaits) s) :
    (∀ k receipt, s.port.receipts[k]? = some receipt → Matches s.port.sent k ch.words receipt.content) ∧
    (s.port.source.dma.done = true → s.port.arrived = s.port.sent.length) ∧
    (s.port.received < s.port.arrived → s.port.sink.memory (.buffer s.port.sink.recvPtr ch.words) = flagValid ∧
      Matches s.port.sent s.port.received ch.words fun i => s.port.sink.memory (.buffer s.port.sink.recvPtr i)) ∧
    (s.source = .ready → s.port.source.memory .sendRecvCount = s.port.seen % 2^32 ∧ s.recvAddr = some ch.sinkAddr ∧
      s.sourceRemote = some ch.sinkId) ∧
    (s.sink = .ready → s.sendRecvCount = some ch.srcAddr ∧ s.sinkRemote = some ch.srcId) := by
  obtain ⟨run,quiet⟩ := reached_simulated positive fits path
  have valid := QueuingPort.reached_valid positive fits run
  refine ⟨fun k receipt there => (valid.receiver.each k receipt there).2,fun done => (length_of_done valid.data done).symm,
    arrived_available valid quiet,fun ready => ⟨?_,quiet.recvAddr (by rw [ready]; decide),
    quiet.sourceRemote (by rw [ready]; decide)⟩,fun ready => ⟨quiet.sendRecvCount (by rw [ready]; decide),
    quiet.sinkRemote (by rw [ready]; decide)⟩⟩
  have known := valid.known
  rw [view_ready ready (quiet.waited (by rw [ready]; decide))] at known
  exact known

def channel : Channel := ⟨1,1,0,1,16,32⟩

-- The scratchpads hold anything before the ports are created.
def powered : State where
  port := {QueuingPort.created with
    source := ⟨.idle,fun _ => 5,5,5,true,true,.none⟩
    sink := ⟨.idle,fun _ => 5,5,5,.none⟩}
  chan := ⟨.sampling,none,none,none,none⟩
  source := .portType
  sink := .portType
  recvAddr := none
  sourceRemote := none
  sendRecvCount := none
  sinkRemote := none

theorem powered_initial : Initial powered :=
  ⟨⟨rfl,rfl⟩,⟨rfl,rfl,rfl,rfl⟩,⟨rfl,rfl⟩,⟨rfl,rfl⟩,rfl,rfl,rfl,rfl,rfl,rfl,rfl⟩

instance (s : State) (action : Action) : Decidable (Allowed s action) :=
  match action with
  | .setupSource | .setupSink => isTrue trivial
  | .port action => inferInstanceAs (Decidable (QueuingPort.Allowed s.port action ∧
      (side action = .source → s.source = .ready) ∧ (side action = .sink → s.sink = .ready)))

instance (ch : Channel) (s : State) (action : Action) : Decidable ((system ch).admits s action) :=
  inferInstanceAs (Decidable (Allowed s action))

instance (ch : Channel) (s : State) (action : Action) : Decidable (((system ch).restrict Awaits).admits s action) :=
  have : Decidable (Awaits s action) := match action with
    | .setupSource => inferInstanceAs (Decidable (s.source = .waitSink → s.chan.sinkId ≠ none → created s.sink = true))
    | .setupSink | .port _ => isTrue trivial
  inferInstanceAs (Decidable (Allowed s action ∧ Awaits s action))

def sends : List Action :=
  [.fill 0 7,.send,.runSource false,.runSource false,.runSource false,.runSource false,.fetchSource,.fetchSource,
    .deliverSource,.deliverSource].map .port

def receives : List Action := [.receive,.runSink false false,.runSink false false].map .port

-- The source sends while the sink is still in mp_init_ports.
def patient : List Action :=
  List.replicate 8 .setupSink ++ List.replicate 11 .setupSource ++ sends ++ List.replicate 3 .setupSink ++ receives

theorem setup_keeps_messages_patient :
    let s := ((system channel).restrict Awaits).run powered patient
    (s.port.returned = 1 ∧ s.port.receipts.map (fun r => (r.buffer,r.content 0)) = [(0,7)]) ∧
    (∀ k receipt, s.port.receipts[k]? = some receipt → Matches s.port.sent k 1 receipt.content) ∧
    (s.port.source.dma.done = true → s.port.arrived = s.port.sent.length) ∧
    (s.port.received < s.port.arrived → s.port.sink.memory (.buffer s.port.sink.recvPtr 1) = flagValid ∧
      Matches s.port.sent s.port.received 1 fun i => s.port.sink.memory (.buffer s.port.sink.recvPtr i)) ∧
    (s.source = .ready → s.port.source.memory .sendRecvCount = s.port.seen % 2^32 ∧ s.recvAddr = some 32 ∧
      s.sourceRemote = some 1) ∧
    (s.sink = .ready → s.sendRecvCount = some 16 ∧ s.sinkRemote = some 0) :=
  ⟨by decide +kernel,setup_keeps_messages channel (le_refl 1) (by decide)
    ((Reached.start powered_initial).run patient (by decide +kernel))⟩

-- The source sends as soon as it sees the id of the sink, which goes on to clear the flag of the message.
def hasty : List Action :=
  List.replicate 3 .setupSink ++ List.replicate 11 .setupSource ++ sends ++ List.replicate 8 .setupSink ++ receives

theorem early_message_lost :
    Reached (system channel) ((system channel).run powered hasty) ∧
    let s := (system channel).run powered hasty
    s.source = .ready ∧ s.sink = .ready ∧ s.port.returned = 1 ∧ s.port.source.dma.done = true ∧ s.port.sink.pc = .idle ∧
      s.port.received = 0 ∧ s.port.sink.memory (.buffer s.port.sink.recvPtr 1) = flagInvalid :=
  ⟨(Reached.start powered_initial).run hasty (by decide +kernel),by decide +kernel⟩
end Patmos.QueuingSetup
