import Patmos.Uart
namespace Patmos.Uart
open Register Serial Transition List BitVec Nat Transmitter

-- The unit with its transmit pin at its receive pin. The line is watched at the pin and, one, two and three cycles
-- later, in the receiver's registers.
structure State where
  unit : Uart
  line : Line
  line0 : Line
  line1 : Line
  line2 : Line
  written : List (BitVec 8)
  delivered : List (BitVec 8)

section System
variable (c : Config)

-- The byte of a frame that has been loaded and whose start bit is not on the line.
def Transmitter.loaded (tx : Transmitter) : List (BitVec 8) :=
  if tx.state = .txSend ∧ tx.counter = 0 then [tx.buff.extractLsb' 1 8] else []

def watch (u : Uart) (l : Line) : Line :=
  if u.tx.state = .txSend ∧ u.tx.baudTick = true then
    if u.tx.counter = 10 then
      match u.txQueue.head? with
      | some byte => ⟨l.sent ++ [byte],some (0,0)⟩
      | none => ⟨l.sent,none⟩
    else if u.tx.counter = 0 then ⟨l.sent ++ u.tx.loaded,some (0,0)⟩
    else ⟨l.sent,some (u.tx.counter,0)⟩
  else ⟨l.sent,l.pos.map fun (k,e) => (k,e+1)⟩

def State.next (s : State) (m : Command) : State where
  unit := s.unit.next c s.unit.tx.reg m
  line := watch s.unit s.line
  line0 := s.line
  line1 := s.line0
  line2 := s.line1
  written := s.written ++ m.written.toList
  delivered := if m.readsData then s.delivered ++ [(s.unit.next c s.unit.tx.reg m).rdDataReg] else s.delivered

structure Transmitter.Starts (tx : Transmitter) : Prop where
  baudCounter : tx.baudCounter = 0
  baudTick : tx.baudTick = false
  state : tx.state = .txIdle
  reg : tx.reg = true
  counter : tx.counter = 0

structure Receiver.Starts (rx : Receiver) : Prop where
  rxdReg0 : rx.rxdReg0 = true
  rxdReg1 : rx.rxdReg1 = true
  rxdReg2 : rx.rxdReg2 = true
  baudTick : rx.baudTick = false
  enable : rx.enable = false
  counter : rx.counter = 0
  state : rx.state = .rxIdle

structure Starts (s : State) : Prop where
  tx : s.unit.tx.Starts
  rx : s.unit.rx.Starts
  txQueue : s.unit.txQueue = []
  rxQueue : s.unit.rxQueue = []
  line : s.line = ⟨[],none⟩
  line0 : s.line0 = ⟨[],none⟩
  line1 : s.line1 = ⟨[],none⟩
  line2 : s.line2 = ⟨[],none⟩
  written : s.written = []
  delivered : s.delivered = []

-- A byte is written while the transmit queue is ready, read while there is one, and the receive queue has room for each
-- that arrives.
def loopback : System State Command where
  start := Starts
  admits := fun s m =>
    (m.cmd = .wr → s.unit.txQueue.length < c.fifoDepth) ∧ (m.readsData = true → s.unit.rxQueue ≠ []) ∧
    (s.unit.rx.valid = true → s.unit.rxQueue.length < c.fifoDepth)
  next := State.next c
end System

def Config.period (c : Config) : Nat := c.divider+1

-- The cycle of a bit in which the receiver samples it.
def Config.sample (c : Config) : Nat := c.divider-c.divider/2+2

section Baud
variable {c : Config}

-- The counters hold the divider.
def Config.Counts (c : Config) : Prop := c.divider < 2^log2Up c.divider

theorem baud_period (counts : c.Counts) (below : k < c.period) :
    baudNext c k = (k+1) % c.period ∧ baudTicks c k = decide (k+1 = c.period) := by
  unfold Config.Counts at counts
  unfold Config.period at *
  unfold baudNext baudTicks
  constructor
  · by_cases last : k = c.divider
    · rw [if_pos last,last,mod_self]
    · rw [if_neg last,mod_eq_of_lt (by omega),mod_eq_of_lt (by omega)]
  · exact decide_eq_decide.mpr (by omega)

theorem baud_inside (counts : c.Counts) (below : k < c.period) :
    baudNext c k < c.period ∧ (baudTicks c k = true → baudNext c k = 0) := by
  obtain ⟨next,tick⟩ := baud_period counts below
  rw [next,tick,decide_eq_true_iff]
  exact ⟨mod_lt _ (succ_pos _),fun last => by rw [last,mod_self]⟩

theorem sample_inside (c : Config) : c.sample+1 < c.period ∧ 2 < c.sample := by
  have fast : 8 ≤ c.divider := c.fast
  unfold Config.sample Config.period
  omega
end Baud

section Sending
variable {c : Config}

-- Between two frames the line is high. Inside of one the transmitter's counter tells the bit, its baud counter the
-- cycles, and the buffer holds the bits that follow.
def Sends (c : Config) (tx : Transmitter) (l : Line) : Prop :=
  match l.pos with
  | none => tx.counter = 0 ∧ tx.reg = true ∧ tx.baudCounter < c.period ∧ (tx.baudTick = true → tx.baudCounter = 0) ∧
    (tx.state = .txSend → tx.buff.getLsbD 0 = false ∧ tx.buff.getLsbD 9 = true)
  | some (k,e) => tx.state = .txSend ∧ tx.counter = k+1 ∧ k ≤ 9 ∧ e < c.period ∧ tx.baudCounter = (e+1) % c.period ∧
    tx.baudTick = decide (e+1 = c.period) ∧ tx.reg = frameBit l.current k ∧
    ∀ i, k+1+i ≤ 9 → tx.buff.getLsbD i = frameBit l.current (k+1+i)

theorem frame_loaded (buff : BitVec 10) (start : buff.getLsbD 0 = false) (stop : buff.getLsbD 9 = true) (inside : i ≤ 9) :
    buff.getLsbD i = frameBit (buff.extractLsb' 1 8) i := by
  unfold frameBit
  by_cases first : i = 0
  · rw [if_pos first,first,start]
  · rw [if_neg first]
    by_cases data : i ≤ 8
    · rw [if_pos data,getLsbD_extractLsb']
      simp only [show i-1 < 8 by omega]
      congr 1
      omega
    · rw [if_neg data,show i = 9 by omega,stop]

theorem frame_follows (byte : BitVec 8) (inside : i ≤ 8) :
    ((1#1 ++ byte : BitVec 9).setWidth 10).getLsbD i = frameBit byte (i+1) := by
  unfold frameBit
  rw [if_neg (succ_ne_zero i),getLsbD_setWidth,getLsbD_append]
  simp only [show i < 10 by omega]
  by_cases data : i < 8
  · rw [if_pos data,if_pos (by omega)]
    rfl
  · rw [if_neg data,if_neg (by omega),show i-8 = 0 by omega]
    rfl

theorem buff_loaded (byte : BitVec 8) :
    (1#1 ++ byte ++ 0#1 : BitVec 10).getLsbD 0 = false ∧ (1#1 ++ byte ++ 0#1 : BitVec 10).getLsbD 9 = true ∧
    (1#1 ++ byte ++ 0#1 : BitVec 10).extractLsb' 1 8 = byte := by
  refine ⟨?_,?_,?_⟩
  · rw [getLsbD_append]
    rfl
  · rw [getLsbD_append,getLsbD_append]
    rfl
  ext i inside
  rw [← getLsbD_eq_getElem,getLsbD_extractLsb',getLsbD_append,getLsbD_append]
  simp [inside]

section Send
variable {tx : Transmitter}

section
variable (state : tx.state = .txSend)
include state

theorem send_waits (quiet : tx.baudTick = false) (queued : Option (BitVec 8)) : tx.send queued = tx := by
  simp [send,state,quiet]

theorem send_shifts (ticks : tx.baudTick = true) (more : tx.counter < 10) (queued : Option (BitVec 8)) :
    tx.send queued = {tx with buff := tx.buff >>> 1, reg := tx.buff.getLsbD 0, counter := tx.counter+1} := by
  have small : (tx.counter+1) % 2^4 = tx.counter+1 := mod_eq_of_lt (by omega)
  unfold send
  rw [state,ticks,small]
  exact (if_pos rfl).trans (if_neg (by omega))

theorem send_ends (ticks : tx.baudTick = true) (last : tx.counter = 10) :
    tx.send none = {tx with buff := tx.buff >>> 1, reg := true, counter := 0, state := .txIdle} := by
  unfold send
  rw [state,ticks,last]
  rfl

theorem send_follows (ticks : tx.baudTick = true) (last : tx.counter = 10) (byte : BitVec 8) :
    tx.send (some byte) = {tx with buff := (1#1 ++ byte : BitVec 9).setWidth 10, reg := false, counter := 1} := by
  unfold send
  rw [state,ticks,last]
  rfl
end

theorem next_begins (counts : c.Counts) (zero : tx.baudCounter = 0) (queued : Option (BitVec 8)) :
    tx.next c queued = {tx.send queued with baudCounter := 1 % c.period, baudTick := false} := by
  have one := sample_inside c
  obtain ⟨next,tick⟩ := baud_period (k := 0) counts (succ_pos _)
  rw [Transmitter.next,zero,next,tick,decide_eq_false (by omega)]
end Send

theorem sends_bit {tx : Transmitter} (sends : Sends c tx l) : tx.reg = l.bit := by
  unfold Sends at sends
  unfold Line.bit
  cases pos : l.pos with
  | none =>
    simp only [pos] at sends
    exact sends.2.1
  | some place =>
    simp only [pos] at sends
    exact sends.2.2.2.2.2.2.1

structure Transmits (c : Config) (u : Uart) (l : Line) : Prop where
  sends : Sends c (u.tx.next c u.txQueue.head?) (watch u l)
  moves : l.Moves c.period (watch u l)
  bytes : (watch u l).sent ++ (u.tx.next c u.txQueue.head?).loaded ++
    (if u.tx.ready u.txQueue.head? then u.txQueue.tail else u.txQueue) = l.sent ++ u.tx.loaded ++ u.txQueue

-- The cycles until the frame of byte n has passed the pin.
def rank (c : Config) (n : Nat) (tx : Transmitter) (l : Line) : Nat :=
  20*c.period*(n-l.sent.length) + match l.pos with
  | some (k,e) => (10-k)*c.period-e
  | none => if tx.state = .txIdle then c.period+3 else if tx.baudTick then 1 else c.period+2-tx.baudCounter

theorem rank_begins {tx after : Transmitter} {bytes : List (BitVec 8)} (more : bytes.length < n) :
    rank c n after ⟨bytes ++ [byte],some (0,0)⟩ < rank c n tx ⟨bytes,pos⟩ := by
  have positive : 0 < c.period := Nat.succ_pos _
  have split : n-bytes.length = n-(bytes.length+1)+1 := by omega
  simp only [rank,length_append,length_singleton,split,Nat.mul_add]
  omega

-- While byte n is queued and has not passed the pin, every cycle brings it nearer.
def Nears (c : Config) (u : Uart) (l : Line) : Prop :=
  ∀ n, n ≤ (l.sent ++ u.tx.loaded ++ u.txQueue).length → ¬n ≤ (l.received c.sample).length →
    rank c n (u.tx.next c u.txQueue.head?) (watch u l) < rank c n u.tx l

section Transmitting
variable {u : Uart} {bytes : List (BitVec 8)}

theorem transmits_to (seen : watch u l = m) (after : u.tx.next c u.txQueue.head? = t) (sends : Sends c t m)
    (moves : l.Moves c.period m)
    (bytes : m.sent ++ t.loaded ++ (if u.tx.ready u.txQueue.head? then u.txQueue.tail else u.txQueue) =
      l.sent ++ u.tx.loaded ++ u.txQueue) : Transmits c u l := by
  subst seen after
  exact ⟨sends,moves,bytes⟩

variable (counts : c.Counts)
include counts

theorem transmits_idle (sends : Sends c u.tx ⟨bytes,none⟩) (idle : u.tx.state = .txIdle) :
    Transmits c u ⟨bytes,none⟩ ∧ Nears c u ⟨bytes,none⟩ := by
  obtain ⟨counter,reg,below,ticks,-⟩ := sends
  obtain ⟨inside,zero⟩ := baud_inside counts below
  have still : watch u ⟨bytes,none⟩ = ⟨bytes,none⟩ := by simp [watch,idle]
  have unloaded : u.tx.loaded = [] := if_neg (by simp [idle])
  cases queue : u.txQueue with
  | nil =>
    refine ⟨transmits_to still rfl ?_ .rests ?_,fun n written missing => ?_⟩
    · simp only [queue,Transmitter.next,send,idle,head?_nil]
      exact ⟨counter,reg,inside,zero,fun sends => by simp at sends⟩
    · simp [queue,Transmitter.next,send,loaded,idle]
    · simp [unloaded,queue,Line.received,Line.passed] at written missing
      omega
  | cons byte rest =>
    obtain ⟨first,last,data⟩ := buff_loaded byte
    have loads : (u.tx.next c (some byte)).state = .txSend := by simp [Transmitter.next,send,idle]
    refine ⟨transmits_to still rfl ?_ .rests ?_,fun n written missing => ?_⟩
    · simp only [queue,Transmitter.next,send,idle]
      exact ⟨counter,reg,inside,zero,fun _ => ⟨first,last⟩⟩
    · simp only [queue,Transmitter.next,send,loaded,ready,idle,counter]
      simp [data]
    · rw [still,queue,head?_cons]
      simp only [rank,loads,reduceCtorEq,if_false]
      split <;> omega

theorem transmits_loaded (sends : Sends c u.tx ⟨bytes,none⟩) (send : u.tx.state = .txSend) :
    Transmits c u ⟨bytes,none⟩ ∧ Nears c u ⟨bytes,none⟩ := by
  obtain ⟨counter,reg,below,ticks,frame⟩ := sends
  obtain ⟨start,stop⟩ := frame send
  have one := sample_inside c
  cases ticking : u.tx.baudTick with
  | true =>
    have begun : watch u ⟨bytes,none⟩ = ⟨bytes ++ [u.tx.buff.extractLsb' 1 8],some (0,0)⟩ := by
      simp [watch,send,ticking,counter,loaded]
    have after := next_begins counts (ticks ticking) u.txQueue.head?
    rw [send_shifts send ticking (by omega),start,counter] at after
    refine ⟨transmits_to begun after ?_ (.begins _) ?_,fun n _ missing => ?_⟩
    · refine ⟨send,rfl,zero_le 9,by omega,rfl,(decide_eq_false (by omega)).symm,rfl,fun i inside => ?_⟩
      rw [Line.current_append,getLsbD_ushiftRight,← frame_loaded u.tx.buff start stop (by omega)]
    · simp [loaded,ready,send,counter]
    · rw [begun]
      exact rank_begins (by simpa [Line.received,Line.passed] using missing)
  | false =>
    have still : watch u ⟨bytes,none⟩ = ⟨bytes,none⟩ := by simp [watch,ticking]
    have after : u.tx.next c u.txQueue.head? =
        {u.tx with baudCounter := baudNext c u.tx.baudCounter, baudTick := baudTicks c u.tx.baudCounter} := by
      rw [Transmitter.next,send_waits send ticking]
    obtain ⟨inside,zero⟩ := baud_inside counts below
    refine ⟨transmits_to still after ⟨counter,reg,inside,zero,frame⟩ .rests ?_,fun n _ _ => ?_⟩
    · simp [loaded,ready,send,ticking]
    · obtain ⟨next,tick⟩ := baud_period counts below
      rw [still,after]
      simp only [rank,send,ticking,next,tick]
      by_cases last : u.tx.baudCounter+1 = c.period
      · simp [last]
        omega
      · rw [mod_eq_of_lt (by omega)]
        simp [last]
        omega

theorem transmits_frame (sends : Sends c u.tx ⟨bytes,some (k,e)⟩) :
    Transmits c u ⟨bytes,some (k,e)⟩ ∧ Nears c u ⟨bytes,some (k,e)⟩ := by
  obtain ⟨send,counter,inside,below,baud,ticking,reg,frame⟩ := sends
  have one := sample_inside c
  have unloaded : u.tx.loaded = [] := if_neg fun both => by omega
  have split : (10-k)*c.period = (9-k)*c.period+c.period := by
    rw [show 10-k = 9-k+1 by omega,Nat.add_mul,Nat.one_mul]
  by_cases ends : e+1 = c.period
  · have ticking : u.tx.baudTick = true := by rw [ticking,decide_eq_true ends]
    have quiet : false = decide (0+1 = c.period) := (decide_eq_false (by omega)).symm
    have after := next_begins counts (by rw [baud,ends,mod_self]) u.txQueue.head?
    by_cases last : k = 9
    · subst last
      cases queue : u.txQueue with
      | nil =>
        have rests : watch u ⟨bytes,some (9,e)⟩ = ⟨bytes,none⟩ := by simp [watch,send,ticking,counter,queue]
        rw [queue,head?_nil,send_ends send ticking counter] at after
        refine ⟨transmits_to rests (.trans (by rw [queue,head?_nil]) after) ?_ (.ends ends) ?_,fun n written missing => ?_⟩
        · exact ⟨rfl,rfl,mod_lt _ (succ_pos _),fun ticks => by simp at ticks,fun sends => by simp at sends⟩
        · simp [queue,loaded,counter]
        · rw [Line.received_passed (by omega)] at missing
          simp [unloaded,queue] at written
          omega
      | cons byte rest =>
        have follows : watch u ⟨bytes,some (9,e)⟩ = ⟨bytes ++ [byte],some (0,0)⟩ := by
          simp [watch,send,ticking,counter,queue]
        rw [queue,head?_cons,send_follows send ticking counter] at after
        refine ⟨transmits_to follows (.trans (by rw [queue,head?_cons]) after) ?_ (.follows byte ends) ?_,fun n _ missing => ?_⟩
        · refine ⟨send,rfl,zero_le 9,by omega,rfl,quiet,rfl,fun i few => ?_⟩
          rw [Line.current_append,frame_follows byte (by omega)]
          congr 1
          omega
        · simp [queue,loaded,ready,counter,send,ticking]
        · rw [follows]
          rw [Line.received_passed (by omega)] at missing
          exact rank_begins (Nat.lt_of_not_le missing)
    · have shifts : watch u ⟨bytes,some (k,e)⟩ = ⟨bytes,some (k+1,0)⟩ := by
        simp [watch,send,ticking,counter,last]
      rw [send_shifts send ticking (by omega),counter] at after
      refine ⟨transmits_to shifts after ?_ (.shifts ends (by omega)) ?_,fun n _ _ => ?_⟩
      · refine ⟨send,rfl,by omega,by omega,rfl,quiet,frame 0 (by omega),fun i few => ?_⟩
        rw [getLsbD_ushiftRight]
        exact (frame (1+i) (by omega)).trans (by rw [← add_assoc]; rfl)
      · simp [loaded,ready,counter,send,last]
      · rw [shifts]
        simp only [rank,show 10-(k+1) = 9-k by omega]
        omega
  · have ticking : u.tx.baudTick = false := by rw [ticking,decide_eq_false ends]
    have holds : watch u ⟨bytes,some (k,e)⟩ = ⟨bytes,some (k,e+1)⟩ := by simp [watch,ticking]
    have small : (e+1) % c.period = e+1 := mod_eq_of_lt (by omega)
    obtain ⟨next,tick⟩ := baud_period (k := e+1) counts (by omega)
    have after : u.tx.next c u.txQueue.head? =
        {u.tx with baudCounter := (e+1+1) % c.period, baudTick := decide (e+1+1 = c.period)} := by
      rw [Transmitter.next,send_waits send ticking,baud,small,next,tick]
    refine ⟨transmits_to holds after ⟨send,counter,inside,by omega,rfl,rfl,reg,frame⟩ (.holds (by omega)) ?_,fun n _ _ => ?_⟩
    · simp [loaded,ready,send,ticking]
    · rw [holds]
      simp only [rank]
      omega

theorem transmits (sends : Sends c u.tx l) : Transmits c u l ∧ Nears c u l := by
  obtain ⟨bytes,pos⟩ := l
  cases pos with
  | none =>
    cases state : u.tx.state with
    | txIdle => exact transmits_idle counts sends state
    | txSend => exact transmits_loaded counts sends state
  | some place => exact transmits_frame counts sends
end Transmitting
end Sending

section Receiving
variable {c : Config}

attribute [local simp] Line.passed Receiver.valid Line.received

structure Waits (rx : Receiver) : Prop where
  state : rx.state = .rxIdle
  enable : rx.enable = false
  baudTick : rx.baudTick = false
  counter : rx.counter = 0

-- The receiver behind m samples of a frame.
def Collects (rx : Receiver) (byte : BitVec 8) (m : Nat) : Prop :=
  if m = 0 then rx.state = .rxStart ∧ rx.counter = 0
  else if m ≤ 8 then rx.state = .rxReceiveData ∧ rx.counter = m-1 ∧ ∀ i < m-1, rx.buff.getLsbD (9-m+i) = byte.getLsbD i
  else rx.state = .rxStopBit ∧ rx.counter = 0 ∧ rx.buff = byte

-- The receiver while its last register shows the line: from the second cycle of the start bit to the sample of the stop
-- bit it is inside of the frame.
def Receives (c : Config) (rx : Receiver) (l : Line) : Prop :=
  match l.pos with
  | none => Waits rx
  | some (k,e) => l.sent ≠ [] ∧ k ≤ 9 ∧
    if (k = 0 ∧ e = 0) ∨ (k = 9 ∧ c.sample < e) then Waits rx
    else rx.enable = true ∧ rx.baudCounter = (e+c.period-c.sample) % c.period ∧ rx.baudTick = decide (e = c.sample) ∧
      Collects rx l.current (if c.sample < e then k+1 else k)

structure Takes (c : Config) (rx : Receiver) (pin : Bool) (l m : Line) : Prop where
  receives : Receives c (rx.next c pin) m
  bytes : m.received c.sample = l.received c.sample ++ (if rx.valid then [rx.buff] else [])

section Step
variable {rx : Receiver} (pin : Bool) {bytes : List (BitVec 8)}

theorem waits_next (waits : Waits rx) (high : rx.rxdReg2 = true) : Waits (rx.next c pin) ∧ rx.valid = false := by
  obtain ⟨state,enable,tick,counter⟩ := waits
  have same : rx.shift c (rx.clocked c) = rx := by simp [Receiver.shift,Receiver.clocked,state,high,enable]
  refine ⟨?_,by simp [state]⟩
  unfold Receiver.next
  rw [same]
  exact ⟨state,enable,tick,counter⟩

theorem takes_waiting {l m : Line} (waiting : Waits rx) (high : rx.rxdReg2 = true)
    (after : Waits (rx.next c pin) → Receives c (rx.next c pin) m) (same : m.received c.sample = l.received c.sample) :
    Takes c rx pin l m := by
  obtain ⟨waits,silent⟩ := waits_next (c := c) pin waiting high
  refine ⟨after waits,?_⟩
  rw [same,silent]
  exact (append_nil _).symm

theorem collects_next (enable : rx.enable = true) (quiet : rx.baudTick = false) (collects : Collects rx byte m) :
    (rx.next c pin).enable = true ∧ (rx.next c pin).baudCounter = baudNext c rx.baudCounter ∧
    (rx.next c pin).baudTick = baudTicks c rx.baudCounter ∧ Collects (rx.next c pin) byte m ∧ rx.valid = false := by
  have busy : rx.state ≠ .rxIdle := by
    unfold Collects at collects
    split at collects
    · simp [collects.1]
    · split at collects <;> simp [collects.1]
  have same : rx.shift c (rx.clocked c) = rx.clocked c := by
    unfold Receiver.shift
    cases state : rx.state with
    | rxIdle => exact absurd state busy
    | rxStart | rxReceiveData | rxStopBit => simp [quiet]
  rw [Receiver.next,same,Receiver.clocked,if_pos enable]
  exact ⟨enable,rfl,rfl,collects,by simp [quiet]⟩

theorem collects_sample (ticks : rx.baudTick = true) (enable : rx.enable = true) (collects : Collects rx byte k) (inside : k ≤ 8)
    (shown : rx.rxdReg2 = frameBit byte k) :
    (rx.next c pin).enable = true ∧ (rx.next c pin).baudCounter = baudNext c rx.baudCounter ∧
    (rx.next c pin).baudTick = baudTicks c rx.baudCounter ∧ Collects (rx.next c pin) byte (k+1) ∧ rx.valid = false := by
  unfold Collects at collects
  by_cases first : k = 0
  · rw [if_pos first] at collects
    obtain ⟨state,counter⟩ := collects
    have low : rx.rxdReg2 = false := by rw [shown,first]; rfl
    have after : rx.shift c (rx.clocked c) = {rx.clocked c with state := .rxReceiveData} := by
      simp [Receiver.shift,state,ticks,low]
    rw [Receiver.next,after,Receiver.clocked,if_pos enable]
    refine ⟨enable,rfl,rfl,?_,by simp [state]⟩
    unfold Collects
    rw [if_neg (by omega),if_pos (by omega)]
    exact ⟨rfl,by rw [first]; exact counter,fun i below => by omega⟩
  · rw [if_neg first,if_pos inside] at collects
    obtain ⟨state,counter,bits⟩ := collects
    have after : rx.shift c (rx.clocked c) =
        {rx.clocked c with
          state := if rx.counter = 7 then .rxStopBit else .rxReceiveData
          counter := if rx.counter = 7 then 0 else (rx.counter+1) % 2^3
          buff := (ofBool rx.rxdReg2 ++ rx.buff.extractLsb' 1 7 : BitVec 8)} := by
      simp [Receiver.shift,state,ticks]
    have shifted (i : Nat) (below : i < k) :
        (ofBool rx.rxdReg2 ++ rx.buff.extractLsb' 1 7 : BitVec 8).getLsbD (8-k+i) = byte.getLsbD i := by
      rw [getLsbD_append]
      by_cases old : i < k-1
      · rw [if_pos (by omega),getLsbD_extractLsb',← bits i old,decide_eq_true (by omega),Bool.true_and]
        congr 1
        omega
      · obtain rfl : i = k-1 := by omega
        rw [if_neg (by omega),show 8-k+(k-1)-7 = 0 by omega,shown,frameBit,if_neg first,if_pos inside]
        simp
    rw [Receiver.next,after,Receiver.clocked,if_pos enable]
    refine ⟨enable,rfl,rfl,?_,by simp [state]⟩
    unfold Collects
    by_cases more : k+1 ≤ 8
    · rw [if_pos more]
      have other : rx.counter ≠ 7 := by omega
      refine ⟨if_neg other,?_,fun i below => ?_⟩
      · show (if rx.counter = 7 then 0 else (rx.counter+1) % 2^3) = k+1-1
        rw [if_neg other]
        omega
      · rw [show 9-(k+1)+i = 8-k+i by omega]
        exact shifted i below
    · rw [if_neg more]
      have last : rx.counter = 7 := by omega
      refine ⟨if_pos last,if_pos last,?_⟩
      refine eq_of_getLsbD_eq fun i below => ?_
      have bit := shifted i (by omega)
      rwa [show 8-k+i = i by omega] at bit

theorem collects_stop (counts : baudTicks c rx.baudCounter = false) (ticks : rx.baudTick = true) (enable : rx.enable = true)
    (collects : Collects rx byte 9) (high : rx.rxdReg2 = true) :
    Waits (rx.next c pin) ∧ rx.valid = true ∧ rx.buff = byte := by
  obtain ⟨state,counter,buff⟩ := collects
  have after : rx.shift c (rx.clocked c) = {rx.clocked c with state := .rxIdle, enable := false} := by
    simp [Receiver.shift,state,ticks]
  rw [Receiver.next,after,Receiver.clocked,if_pos enable]
  exact ⟨⟨rfl,rfl,counts,counter⟩,by simp [state,ticks,high],buff⟩

theorem takes_holds (counts : c.Counts) (receives : Receives c rx ⟨bytes,some (k,e)⟩)
    (shown : rx.rxdReg2 = (Line.mk bytes (some (k,e))).bit) (more : e+1 < c.period) :
    Takes c rx pin ⟨bytes,some (k,e)⟩ ⟨bytes,some (k,e+1)⟩ := by
  obtain ⟨early,late⟩ := sample_inside c
  obtain ⟨begun,inside,receives⟩ := receives
  split at receives
  case isTrue outside =>
    rcases outside with ⟨rfl,rfl⟩ | ⟨rfl,past⟩
    · -- The receiver sees the start bit.
      obtain ⟨state,enable,tick,counter⟩ := receives
      have low : rx.rxdReg2 = false := shown
      have half : c.divider/2 % 2^log2Up c.divider = (0+1+c.period-c.sample) % c.period := by
        unfold Config.Counts at counts
        rw [mod_eq_of_lt (by omega),mod_eq_of_lt (by omega)]
        unfold Config.period Config.sample
        omega
      have after : rx.shift c (rx.clocked c) =
          {rx with state := .rxStart, baudCounter := (0+1+c.period-c.sample) % c.period, enable := true} := by
        simp [Receiver.shift,Receiver.clocked,state,enable,low,half]
      constructor
      · rw [Receiver.next,after]
        refine ⟨begun,inside,?_⟩
        refine ⟨rfl,rfl,tick.trans (decide_eq_false (by omega)).symm,?_⟩
        exact ⟨rfl,counter⟩
      · simp [state]
    · -- The stop bit has been sampled.
      refine takes_waiting pin receives shown (fun waits => ⟨begun,inside,?_⟩) (by simp [past,lt_succ_of_lt past])
      rwa [if_pos (.inr ⟨rfl,by omega⟩)]
  case isFalse within =>
    obtain ⟨enable,baud,tick,collects⟩ := receives
    have below : (e+c.period-c.sample) % c.period < c.period := mod_lt _ (succ_pos _)
    obtain ⟨counts,ticks⟩ := baud_period counts below
    rw [← baud] at counts ticks
    by_cases now : e = c.sample
    · subst now
      rw [if_neg (lt_irrefl _)] at collects
      have tick : rx.baudTick = true := by rw [tick,decide_eq_true rfl]
      have zero : rx.baudCounter = 0 := by rw [baud,Nat.add_sub_cancel_left,Nat.mod_self]
      have quiet : baudTicks c rx.baudCounter = false := by
        rw [ticks]
        exact decide_eq_false (by omega)
      by_cases last : k = 9
      · subst last
        obtain ⟨waits,valid,buff⟩ := collects_stop pin quiet tick enable collects shown
        constructor
        · refine ⟨begun,inside,?_⟩
          rw [if_pos (.inr ⟨rfl,by omega⟩)]
          exact waits
        · rw [valid,buff]
          have passed : (Line.mk bytes (some (9,c.sample+1))).passed c.sample = true := by simp
          have before : (Line.mk bytes (some (9,c.sample))).passed c.sample = false := by simp
          unfold Line.received
          rw [if_pos passed,if_neg (by rw [before]; decide)]
          unfold Line.current
          rw [getLastD_eq_getLast?,getLast?_eq_some_getLast begun]
          exact (dropLast_concat_getLast begun).symm
      · obtain ⟨enable,counter,ticking,collects,silent⟩ :=
          collects_sample (c := c) pin tick enable collects (by omega) shown
        constructor
        · refine ⟨begun,inside,?_⟩
          rw [if_neg (by omega)]
          refine ⟨enable,?_,?_,?_⟩
          · rw [counter,counts,zero,show c.sample+1+c.period-c.sample = 1+c.period by omega,add_mod_right]
          · rw [ticking,quiet]
            exact (decide_eq_false (by omega)).symm
          · rw [if_pos (lt_succ_self _)]
            exact collects
        · rw [silent]
          simp [last]
    · have quiet : rx.baudTick = false := by rw [tick,decide_eq_false now]
      obtain ⟨enable,counter,ticking,collects,silent⟩ := collects_next (c := c) pin enable quiet collects
      have same : c.sample < e+1 ↔ c.sample < e := by omega
      have next : ((e+c.period-c.sample) % c.period+1) % c.period = (e+1+c.period-c.sample) % c.period := by
        rw [mod_add_mod]
        congr 1
        omega
      constructor
      · refine ⟨begun,inside,?_⟩
        rw [if_neg (by omega)]
        refine ⟨enable,?_,?_,?_⟩
        · rw [counter,counts,baud,next]
        · rw [ticking,ticks,baud]
          refine decide_eq_decide.mpr ?_
          by_cases less : e < c.sample
          · rw [mod_eq_of_lt (by omega)]
            omega
          · rw [show e+c.period-c.sample = e-c.sample+c.period by omega,add_mod_right,mod_eq_of_lt (by omega)]
            omega
        · simp only [same]
          exact collects
      · rw [silent]
        simp [same]

theorem takes_shifts (counts : c.Counts) (receives : Receives c rx ⟨bytes,some (k,e)⟩) (ends : e+1 = c.period) (more : k < 9) :
    Takes c rx pin ⟨bytes,some (k,e)⟩ ⟨bytes,some (k+1,0)⟩ := by
  obtain ⟨early,late⟩ := sample_inside c
  obtain ⟨begun,inside,receives⟩ := receives
  rw [if_neg (by omega),if_pos (by omega)] at receives
  obtain ⟨enable,baud,tick,collects⟩ := receives
  have quiet : rx.baudTick = false := by rw [tick,decide_eq_false (by omega)]
  have exact_baud : rx.baudCounter = e-c.sample := by
    rw [baud,show e+c.period-c.sample = e-c.sample+c.period by omega,add_mod_right,mod_eq_of_lt (by omega)]
  obtain ⟨counts,ticks⟩ := baud_period (k := rx.baudCounter) counts (by omega)
  obtain ⟨enable,counter,ticking,collects,silent⟩ := collects_next (c := c) pin enable quiet collects
  constructor
  · refine ⟨begun,more,?_⟩
    rw [if_neg (by omega)]
    refine ⟨enable,?_,?_,collects⟩
    · rw [counter,counts]
      congr 1
      omega
    · rw [ticking,ticks]
      exact decide_eq_decide.mpr (by omega)
  · rw [silent]
    simp [more.ne]

theorem takes (counts : c.Counts) (receives : Receives c rx l) (shown : rx.rxdReg2 = l.bit) (moves : l.Moves c.period m) :
    Takes c rx pin l m := by
  obtain ⟨early,late⟩ := sample_inside c
  cases moves with
  | rests => exact takes_waiting pin receives shown id rfl
  | begins byte => exact takes_waiting pin receives shown (fun waits => ⟨by simp,zero_le 9,waits⟩) (by simp)
  | holds more => exact takes_holds pin counts receives shown more
  | shifts ends more => exact takes_shifts pin counts receives ends more
  | follows byte ends =>
    obtain ⟨-,-,receives⟩ := receives
    rw [if_pos (.inr ⟨rfl,by omega⟩)] at receives
    refine takes_waiting pin receives shown (fun waits => ⟨by simp,zero_le 9,waits⟩) ?_
    rw [Line.received_begun,Line.received_passed (by omega)]
  | ends ends =>
    obtain ⟨-,-,receives⟩ := receives
    rw [if_pos (.inr ⟨rfl,by omega⟩)] at receives
    refine takes_waiting pin receives shown id ?_
    rw [Line.received_passed (by omega)]
    rfl
end Step
end Receiving

section Invariant
variable {c : Config} {s : State} {m : Command}

structure Linked (c : Config) (s : State) : Prop where
  sends : Sends c s.unit.tx s.line
  move0 : s.line0.Moves c.period s.line
  move1 : s.line1.Moves c.period s.line0
  move2 : s.line2.Moves c.period s.line1
  shown0 : s.unit.rx.rxdReg0 = s.line0.bit
  shown1 : s.unit.rx.rxdReg1 = s.line1.bit
  shown2 : s.unit.rx.rxdReg2 = s.line2.bit
  receives : Receives c s.unit.rx s.line2
  written : s.written = s.line.sent ++ s.unit.tx.loaded ++ s.unit.txQueue
  received : s.delivered ++ s.unit.rxQueue = s.line2.received c.sample

theorem starts_linked (c : Config) (starts : Starts s) : Linked c s := by
  obtain ⟨unit,_,_,_,_,_,_⟩ := s
  obtain ⟨tx,rx,txQueue,rxQueue,rfl,rfl,rfl,rfl,rfl,rfl⟩ := starts
  refine ⟨⟨tx.counter,tx.reg,?_,fun _ => tx.baudCounter,fun sends => ?_⟩,.rests,.rests,.rests,
    rx.rxdReg0,rx.rxdReg1,rx.rxdReg2,⟨rx.state,rx.enable,rx.baudTick,rx.counter⟩,?_,rxQueue⟩
  · rw [tx.baudCounter]
    exact succ_pos _
  · rw [tx.state] at sends
    cases sends
  · dsimp only at tx txQueue
    simp [txQueue,loaded,tx.state]

theorem queue_offered {queue : List α} {offered : Option α} (room : offered.isSome = true → queue.length < depth) (taken : Bool) :
    queueNext depth queue offered taken = (if taken then queue.tail else queue) ++ offered.toList := by
  unfold queueNext
  cases offered with
  | none => simp
  | some x => rw [if_pos (room rfl)]

theorem linked_step (counts : c.Counts) (linked : Linked c s) (admitted : (loopback c).admits s m) : Linked c (s.next c m) := by
  obtain ⟨write,read,room⟩ := admitted
  obtain ⟨⟨sends,moves,bytes⟩,-⟩ := transmits counts linked.sends
  obtain ⟨receives,taken⟩ := takes s.unit.tx.reg counts linked.receives linked.shown2 linked.move2
  refine ⟨sends,moves,linked.move0,linked.move1,sends_bit linked.sends,linked.shown0,linked.shown1,receives,?_,?_⟩
  · have ready : m.written.isSome = true → s.unit.txQueue.length < c.fifoDepth := by
      intro some
      refine write ?_
      by_contra other
      simp [Command.written,other] at some
    show s.written ++ m.written.toList = _ ++ _ ++ queueNext c.fifoDepth s.unit.txQueue m.written _
    rw [queue_offered ready,← List.append_assoc,linked.written]
    exact congrArg (· ++ m.written.toList) bytes.symm
  · have room : s.unit.received.isSome = true → s.unit.rxQueue.length < c.fifoDepth := by
      intro some
      refine room ?_
      by_contra other
      simp [Uart.received,other] at some
    have arrives : s.unit.received.toList = if s.unit.rx.valid then [s.unit.rx.buff] else [] := by
      unfold Uart.received
      split <;> rfl
    show (s.next c m).delivered ++ queueNext c.fifoDepth s.unit.rxQueue s.unit.received m.readsData = s.line1.received c.sample
    rw [queue_offered room,taken,← List.append_assoc,← linked.received]
    congr 1
    cases reads : m.readsData with
    | false => simp [State.next,reads]
    | true =>
      have data : m.addr.getLsbD 2 = true := by
        simp only [Command.readsData,Bool.and_eq_true] at reads
        exact reads.2
      cases queue : s.unit.rxQueue with
      | nil => exact absurd queue (read reads)
      | cons byte rest =>
        have shown : (s.unit.next c s.unit.tx.reg m).rdDataReg = byte := by
          simp only [Uart.next,queue]
          exact if_pos data
        simp [State.next,reads,shown]

theorem reached_linked (counts : c.Counts) (path : Reached (loopback c) s) : Linked c s :=
  path.invariant (fun _ => starts_linked c) (fun _ _ linked admitted => linked_step counts linked admitted)

theorem linked_received (linked : Linked c s) : s.delivered ++ s.unit.rxQueue <+: s.written := by
  have carried : s.line2.received c.sample <+: s.line.sent :=
    (s.line2.received_sent c.sample).trans (linked.move2.sent.trans (linked.move1.sent.trans linked.move0.sent))
  rw [linked.received,linked.written,List.append_assoc]
  exact carried.trans (List.prefix_append _ _)

theorem linked_delivered (linked : Linked c s) : s.delivered <+: s.written :=
  (prefix_append _ _).trans (linked_received linked)
end Invariant

section Progress
variable {c : Config}

theorem counts_other (other : ∀ k, c.divider ≠ 2^k) : c.Counts :=
  lt_of_le_of_ne (le_two_pow_log2Up c.divider) (other _)

theorem uart_loopback {s : State} (other : ∀ k, c.divider ≠ 2^k) (path : Reached (loopback c) s) :
    s.delivered <+: s.written ∧
    ∀ inputs, (∀ t, (loopback c).Follows s inputs t) → ∃ t,
      s.written <+: ((loopback c).states s inputs t).delivered ++ ((loopback c).states s inputs t).unit.rxQueue := by
  have counts := counts_other other
  refine ⟨linked_delivered (reached_linked counts path),fun inputs follows => ?_⟩
  have later (t : Nat) : s.written <+: ((loopback c).states s inputs t).written := by
    induction t with
    | zero => exact prefix_refl _
    | succ t ih => exact ih.trans (prefix_append _ _)
  have progress := @Reached.served _ _ s _ (fun x => s.written.length ≤ x.written.length)
    (fun x => s.written.length ≤ (x.line.received c.sample).length) (fun x => rank c s.written.length x.unit.tx x.line) ?_ inputs path
    follows le_rfl
  · obtain ⟨t,-,-,passed⟩ := progress
    refine ⟨t+3,?_⟩
    have linked := reached_linked counts (path.states (follows (t+3)))
    have arrived := linked_received linked
    rw [linked.received] at arrived ⊢
    exact prefix_of_prefix_length_le (later (t+3)) arrived passed
  · intro x m reached admitted waits missing
    have linked := reached_linked counts reached
    constructor
    · show s.written.length ≤ (x.written ++ _).length
      rw [length_append]
      omega
    · exact (transmits counts linked.sends).2 _ (linked.written ▸ waits) missing

def idle : Command := ⟨.idle,0#32,0#32⟩
def write (byte : BitVec 8) : Command := ⟨.wr,4#32,byte.setWidth 32⟩

def resting : State where
  unit :=
    {tx := ⟨0,false,.txIdle,0#10,true,0⟩
     rx := ⟨true,true,true,0,false,false,0#8,0,.rxIdle⟩
     txQueue := []
     rxQueue := []
     respReg := .null
     rdDataReg := 0#8}
  line := ⟨[],none⟩
  line0 := ⟨[],none⟩
  line1 := ⟨[],none⟩
  line2 := ⟨[],none⟩
  written := []
  delivered := []

theorem resting_reached (c : Config) : Reached (loopback c) resting :=
  .start ⟨⟨rfl,rfl,rfl,rfl,rfl⟩,⟨rfl,rfl,rfl,rfl,rfl,rfl,rfl⟩,rfl,rfl,rfl,rfl,rfl,rfl,rfl,rfl⟩

theorem written_reached (c : Config) (byte : BitVec 8) : Reached (loopback c) (resting.next c (write byte)) :=
  .step (resting_reached c) ⟨fun _ => c.deep,fun reads => by simp [Command.readsData,write] at reads,
    fun valid => by simp [Receiver.valid,resting] at valid⟩

theorem idle_admitted (room : s.unit.rx.valid = true → s.unit.rxQueue.length < c.fifoDepth) : (loopback c).admits s idle :=
  ⟨fun write => by simp [idle] at write,fun reads => by simp [Command.readsData,idle] at reads,room⟩

def standard : Config := ⟨80000000,115200,16,le_of_ble_eq_true rfl,le_of_ble_eq_true rfl⟩

theorem idle_written (c : Config) (s : State) (t : Nat) : ((loopback c).states s (fun _ => idle) t).written = s.written := by
  induction t with
  | zero => rfl
  | succ t ih => exact (append_nil _).trans ih

theorem uart_loopback_byte : ∃ t, [0x41#8] <+:
    ((loopback standard).states (resting.next standard (write 0x41#8)) (fun _ => idle) t).delivered ++
    ((loopback standard).states (resting.next standard (write 0x41#8)) (fun _ => idle) t).unit.rxQueue := by
  have other : ∀ k, standard.divider ≠ 2^k := by
    intro k power
    have value : standard.divider = 694 := by decide
    by_cases small : k ≤ 9
    · have below := Nat.pow_le_pow_right (n := 2) (by decide) small
      omega
    · have above := Nat.pow_le_pow_right (n := 2) (by decide) (Nat.lt_of_not_le small)
      omega
  have path := written_reached standard 0x41#8
  refine (uart_loopback other path).2 (fun _ => idle) fun t => ?_
  -- With one byte written the receive queue never fills.
  induction t with
  | zero => exact fun u none => absurd none (not_lt_zero u)
  | succ t follows =>
    intro u upTo
    rcases Nat.lt_succ_iff_lt_or_eq.mp upTo with earlier | rfl
    · exact follows u earlier
    · refine idle_admitted fun _ => ?_
      have arrived := (linked_received (reached_linked (counts_other other) (path.states follows))).length_le
      rw [idle_written,length_append] at arrived
      have one : (resting.next standard (write 0x41#8)).written.length = 1 := by decide
      have deep : standard.fifoDepth = 16 := rfl
      omega

-- A baud counter that cannot hold the divider never ticks.
structure Stuck (c : Config) (s : State) : Prop where
  counter : s.unit.tx.baudCounter < c.divider
  tick : s.unit.tx.baudTick = false
  reg : s.unit.tx.reg = true
  waits : Waits s.unit.rx
  shown0 : s.unit.rx.rxdReg0 = true
  shown1 : s.unit.rx.rxdReg1 = true
  shown2 : s.unit.rx.rxdReg2 = true
  received : s.delivered ++ s.unit.rxQueue = []

theorem stuck_step {s : State} {m : Command} (power : c.divider = 2^log2Up c.divider) (stuck : Stuck c s)
    (admitted : (loopback c).admits s m) : Stuck c (s.next c m) := by
  obtain ⟨waits,silent⟩ := waits_next (c := c) s.unit.tx.reg stuck.waits stuck.shown2
  obtain ⟨none,empty⟩ := append_eq_nil_iff.mp stuck.received
  have reads : m.readsData = false := by
    by_contra reads
    exact admitted.2.1 (by simpa using reads) empty
  have same : (s.unit.tx.send s.unit.txQueue.head?).reg = true := by
    unfold send
    rw [stuck.tick]
    split
    · split <;> exact stuck.reg
    · exact stuck.reg
  refine ⟨?_,decide_eq_false stuck.counter.ne,same,waits,stuck.reg,stuck.shown0,stuck.shown1,?_⟩
  · show baudNext c s.unit.tx.baudCounter < c.divider
    rw [baudNext,if_neg stuck.counter.ne]
    exact Nat.lt_of_lt_of_eq (Nat.mod_lt _ (Nat.two_pow_pos _)) power.symm
  · simp [State.next,Uart.next,reads,none,empty,queueNext,Uart.received,silent]

def eighth : Config := ⟨8,1,1,Nat.le_refl 8,Nat.zero_lt_one⟩

theorem byte_stuck : Reached (loopback eighth) (resting.next eighth (write 0x41#8)) ∧
    (resting.next eighth (write 0x41#8)).written = [0x41#8] ∧
    (∀ t, (loopback eighth).Follows (resting.next eighth (write 0x41#8)) (fun _ => idle) t) ∧
    ∀ t, ((loopback eighth).states (resting.next eighth (write 0x41#8)) (fun _ => idle) t).delivered ++
      ((loopback eighth).states (resting.next eighth (write 0x41#8)) (fun _ => idle) t).unit.rxQueue = [] := by
  have power : eighth.divider = 2^log2Up eighth.divider := (congrArg (2^·) (log2Up_two_pow 2)).symm
  have start : Stuck eighth (resting.next eighth (write 0x41#8)) :=
    stuck_step power ⟨by decide,rfl,rfl,⟨rfl,rfl,rfl,rfl⟩,rfl,rfl,rfl,rfl⟩
      ⟨fun _ => by decide,fun reads => by simp [Command.readsData,write] at reads,fun valid => by simp [Receiver.valid,resting] at valid⟩
  have admits (s : State) (stuck : Stuck eighth s) : (loopback eighth).admits s idle :=
    idle_admitted fun valid => by simp [Receiver.valid,stuck.waits.state] at valid
  have stuck (t : Nat) : Stuck eighth ((loopback eighth).states (resting.next eighth (write 0x41#8)) (fun _ => idle) t) := by
    induction t with
    | zero => exact start
    | succ t ih => exact stuck_step power ih (admits _ ih)
  exact ⟨written_reached eighth 0x41#8,by decide,fun t u _ => admits _ (stuck u),fun t => (stuck t).received⟩
end Progress
end Patmos.Uart
