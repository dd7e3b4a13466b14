import Patmos.OcpSignals
import Patmos.RegisterWidth
import Patmos.SerialLine
import Patmos.TransitionSystem
namespace Patmos.Uart
open Register

structure Config where
  clkFreq : Nat
  baudRate : Nat
  fifoDepth : Nat
  fast : 8 ≤ clkFreq/baudRate
  deep : 1 ≤ fifoDepth

def Config.divider (c : Config) : Nat := c.clkFreq/c.baudRate

inductive TxState where
  | txIdle
  | txSend
  deriving DecidableEq, Repr

inductive RxState where
  | rxIdle
  | rxStart
  | rxReceiveData
  | rxStopBit
  deriving DecidableEq, Repr

structure Transmitter where
  baudCounter : Nat
  baudTick : Bool
  state : TxState
  buff : BitVec 10
  reg : Bool
  counter : Nat

structure Receiver where
  rxdReg0 : Bool
  rxdReg1 : Bool
  rxdReg2 : Bool
  baudCounter : Nat
  baudTick : Bool
  enable : Bool
  buff : BitVec 8
  counter : Nat
  state : RxState

structure Command where
  cmd : OcpCmd
  addr : BitVec 32
  data : BitVec 32

-- The counters of both baud rates have the same width, which need not hold the divider.
def baudNext (c : Config) (counter : Nat) : Nat :=
  if counter = c.divider then 0 else (counter+1) % 2^log2Up c.divider

def baudTicks (c : Config) (counter : Nat) : Bool := counter = c.divider

namespace Transmitter
variable (c : Config) (tx : Transmitter)

def ready (queued : Option (BitVec 8)) : Bool :=
  queued.isSome && match tx.state with
  | .txIdle => true
  | .txSend => tx.baudTick && tx.counter == 10

def send (queued : Option (BitVec 8)) : Transmitter :=
  match tx.state with
  | .txIdle =>
    match queued with
    | some byte => {tx with buff := (1#1 ++ byte ++ 0#1 : BitVec 10), state := .txSend}
    | none => tx
  | .txSend =>
    if tx.baudTick then
      if tx.counter = 10 then
        match queued with
        | some byte => {tx with buff := (1#1 ++ byte : BitVec 9).setWidth 10, reg := false, counter := 1}
        | none => {tx with buff := tx.buff >>> 1, reg := true, counter := 0, state := .txIdle}
      else {tx with buff := tx.buff >>> 1, reg := tx.buff.getLsbD 0, counter := (tx.counter+1) % 2^4}
    else tx

def next (queued : Option (BitVec 8)) : Transmitter :=
  {tx.send queued with
    baudCounter := baudNext c tx.baudCounter
    baudTick := baudTicks c tx.baudCounter}
end Transmitter

namespace Receiver
variable (c : Config) (rx : Receiver)

def valid : Bool := rx.state == .rxStopBit && rx.baudTick && rx.rxdReg2

def clocked : Receiver :=
  if rx.enable then {rx with baudCounter := baudNext c rx.baudCounter, baudTick := baudTicks c rx.baudCounter} else rx

def shift (q : Receiver) : Receiver :=
  match rx.state with
  | .rxIdle => if rx.rxdReg2 then q else {q with state := .rxStart, baudCounter := c.divider/2 % 2^log2Up c.divider, enable := true}
  | .rxStart => if rx.baudTick then {q with state := if rx.rxdReg2 then .rxIdle else .rxReceiveData} else q
  | .rxReceiveData =>
    if rx.baudTick then
      {q with
        state := if rx.counter = 7 then .rxStopBit else .rxReceiveData
        counter := if rx.counter = 7 then 0 else (rx.counter+1) % 2^3
        buff := (BitVec.ofBool rx.rxdReg2 ++ rx.buff.extractLsb' 1 7 : BitVec 8)}
    else q
  | .rxStopBit => if rx.baudTick then {q with state := .rxIdle, enable := false} else q

def next (pin : Bool) : Receiver :=
  {rx.shift c (rx.clocked c) with
    rxdReg0 := pin
    rxdReg1 := rx.rxdReg0
    rxdReg2 := rx.rxdReg1}
end Receiver

-- A queue takes what is offered unless it is full, and gives its first element away.
def queueNext (depth : Nat) (queue : List α) (offered : Option α) (taken : Bool) : List α :=
  (if taken then queue.tail else queue) ++ if queue.length < depth then offered.toList else []
end Uart

structure Uart where
  tx : Uart.Transmitter
  rx : Uart.Receiver
  txQueue : List (BitVec 8)
  rxQueue : List (BitVec 8)
  respReg : OcpResp
  rdDataReg : BitVec 8

namespace Uart
variable (c : Config) (u : Uart)

def Command.readsData (m : Command) : Bool := m.cmd == .rd && m.addr.getLsbD 2

def Command.written (m : Command) : Option (BitVec 8) := if m.cmd = .wr then some (m.data.extractLsb' 0 8) else none

def received : Option (BitVec 8) := if u.rx.valid then some u.rx.buff else none

-- What an empty queue shows is never read.
def next (pin : Bool) (m : Command) : Uart where
  tx := u.tx.next c u.txQueue.head?
  rx := u.rx.next c pin
  txQueue := queueNext c.fifoDepth u.txQueue m.written (u.tx.ready u.txQueue.head?)
  rxQueue := queueNext c.fifoDepth u.rxQueue u.received m.readsData
  respReg := if m.cmd = .idle then .null else .dva
  rdDataReg :=
    if m.addr.getLsbD 2 then u.rxQueue.headD 0#8
    else (0#6 ++ BitVec.ofBool (!u.rxQueue.isEmpty) ++ BitVec.ofBool (u.txQueue.length < c.fifoDepth) : BitVec 8)
end Uart
end Patmos
