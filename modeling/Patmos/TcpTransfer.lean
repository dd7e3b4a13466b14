import Patmos.Tcp
import Patmos.TransitionSystem
namespace Patmos.Ethlib
open Transition List

-- The transmit buffer is at a whole word.
structure TcpLink where
  conn : TcpConnection
  txWord : Nat
  rxAddr : Nat

namespace TcpLink
variable (l : TcpLink) (m : Buffer)

-- mac_packet_type gives TCP for these bytes.
def isTcp : Prop := memIordByte m (l.rxAddr+12) = 0x08 ∧ memIordByte m (l.rxAddr+13) = 0x00 ∧ memIordByte m (l.rxAddr+23) = 0x06

def expects (flag : BitVec 8) : Prop :=
  tcpGetDestinationPort m l.rxAddr = l.conn.srcPort ∧ tcpGetFlags m l.rxAddr &&& flag = flag

instance : Decidable (l.isTcp m) := inferInstanceAs (Decidable (_ ∧ _))
instance (flag : BitVec 8) : Decidable (l.expects m flag) := inferInstanceAs (Decidable (_ ∧ _))

def send (flags : BitVec 16) (data : Nat → BitVec 8) (dataLength : BitVec 16) : Buffer :=
  (tcpSend l.conn flags dataLength m (4*l.txWord) data).1

-- `received` is the memory after eth_mac_receive, unless that timed out. The results are the memory, the segments sent
-- and the value returned.
def tcpPush (data : Nat → BitVec 8) (size : BitVec 16) (received : Option Buffer) : Buffer × List Buffer × Nat :=
  let first := l.send m 0x18 data size
  match received with
  | none => (first,[first],0)
  | some m =>
    if l.isTcp m then
      if l.expects m 0x10 then (m,[first],1) else (l.send m 0x18 data size,[first,l.send m 0x18 data size],0)
    else (m,[first],0)

-- The receive buffer and its size come first.
def tcpRecv (buffer : (Nat → BitVec 8) × Nat) (received : Option Buffer) : ((Nat → BitVec 8) × Nat) × Buffer × List Buffer × Nat :=
  match received with
  | none => (buffer,m,[],0)
  | some m =>
    if l.isTcp m ∧ l.expects m 0x8 then
      (tcpGetData m l.rxAddr buffer.1,l.send m 0x10 (fun _ => 0x30) 0,[l.send m 0x10 (fun _ => 0x30) 0],1)
    else (buffer,m,[],0)

-- The number that follows the segment in the receive buffer.
def following : BitVec 32 := tcpGetSeqnum m l.rxAddr+(tcpGetDataLength m l.rxAddr).setWidth 32
end TcpLink

-- The number and the size of the last push and the number of the peer's next segment are beside what the calls work on.
structure TcpState where
  m : Buffer
  recvBuffer : (Nat → BitVec 8) × Nat
  pushed : Option (BitVec 32 × BitVec 16)
  peer : Option (BitVec 32)

inductive TcpCall where
  | push (data : Nat → BitVec 8) (size : BitVec 16) (received : Buffer)
  | recv (received : Buffer)

def tcpTransfer (l : TcpLink) : System TcpState TcpCall where
  start s := s.pushed = none ∧ s.peer = none
  admits s
    | .push _ size received => size.toNat ≤ 65481 ∧ l.isTcp received ∧ l.expects received 0x10
    | .recv received => l.isTcp received ∧ l.expects received 0x8 ∧ ∀ n ∈ s.peer, tcpGetSeqnum received l.rxAddr = n
  next s
    | .push data size received =>
      {s with
        m := (l.tcpPush s.m data size received).1
        pushed := some (tcpGetSeqnum (l.send s.m 0x18 data size) (4*l.txWord),size)}
    | .recv received =>
      let (buffer,m,_) := l.tcpRecv s.m s.recvBuffer received
      ⟨m,buffer,s.pushed,some (l.following received)⟩

def Carries (l : TcpLink) (s : TcpState) : TcpCall → Prop
  | .push data size received => ∀ sent ∈ (l.tcpPush s.m data size received).2.1,∀ last ∈ s.pushed,
      tcpGetSeqnum sent (4*l.txWord) = last.1+last.2.setWidth 32
  | .recv received => ∀ sent ∈ (l.tcpRecv s.m s.recvBuffer received).2.2.1,tcpGetAcknum sent (4*l.txWord) = l.following received

-- The numbers of the connection need not move.
def Unmoved (l : TcpLink) (s : TcpState) : TcpCall → Prop
  | .push _ _ _ => ∀ last ∈ s.pushed,last.2 = 0
  | .recv received => l.following received = l.conn.ackNum

def KeepsNumbers (l : TcpLink) (m : System TcpState TcpCall) : Prop :=
  ∀ s call, Reached m s → m.admits s call → Carries l s call

theorem push_acknowledged {l : TcpLink} (tcp : l.isTcp received) (accepted : l.expects received 0x10) (m : Buffer) (data : Nat → BitVec 8) (size : BitVec 16) :
    l.tcpPush m data size received = (received,[l.send m 0x18 data size],1) := by
  simp only [TcpLink.tcpPush,tcp,accepted,if_true]

theorem send_seqnum (l : TcpLink) (m : Buffer) (flags : BitVec 16) (data : Nat → BitVec 8) (few : size.toNat ≤ 65481) :
    tcpGetSeqnum (l.send m flags data size) (4*l.txWord) = l.conn.seqNum := (tcpSend_header m l.txWord l.conn flags data few).seqnum

theorem pushed_seqnum {l : TcpLink} (path : Reached ((tcpTransfer l).restrict Q) s) : ∀ last ∈ s.pushed,last.1 = l.conn.seqNum := by
  intro last pushed
  induction path with
  | start begun =>
    rw [begun.1] at pushed
    cases pushed
  | @step s call path admitted ih =>
    cases call with
    | push data size received =>
      cases pushed
      exact send_seqnum l s.m 0x18 data admitted.1.1
    | recv received => exact ih pushed

theorem numbers_kept (l : TcpLink) : KeepsNumbers l ((tcpTransfer l).restrict (Unmoved l)) := by
  rintro s (⟨data,size,received⟩ | received) path ⟨admitted,unmoved⟩ sent member
  · obtain ⟨few,tcp,acknowledged⟩ := admitted
    rw [push_acknowledged tcp acknowledged] at member
    intro last pushed
    rw [mem_singleton.mp member,send_seqnum l s.m 0x18 data few,pushed_seqnum path last pushed,unmoved last pushed]
    exact (BitVec.add_zero _).symm
  · obtain ⟨tcp,accepted,-⟩ := admitted
    simp only [TcpLink.tcpRecv,tcp,accepted,and_self,if_true] at member
    rw [mem_singleton.mp member]
    exact ((tcpSend_header received l.txWord l.conn 0x10 _ (by decide)).acknum (by decide)).trans unmoved.symm

-- A segment of one byte to port 80, with the flags PSH and ACK.
def pushedByte : Buffer
  | 3 => 0x08004500
  | 4 => 0x00290000
  | 5 => 0x40004006
  | 9 => 0x00500000
  | 11 => 0x00005018
  | _ => 0

def oneByte : TcpCall := .push (fun _ => 1) 1 pushedByte

def toEighty : TcpLink := ⟨⟨fun _ => 0,fun _ => 0,fun _ => 0,fun _ => 0,80,80,7,0,0⟩,1024,0⟩

theorem second_push_repeats : ¬∀ l, KeepsNumbers l (tcpTransfer l) := by
  intro keeps
  have few : (1 : BitVec 16).toNat ≤ 65481 := by decide
  have accepted : toEighty.isTcp pushedByte ∧ toEighty.expects pushedByte 0x10 := by decide +kernel
  have begun : (tcpTransfer toEighty).start ⟨fun _ => 0,(fun _ => 0,0),none,none⟩ := ⟨rfl,rfl⟩
  have path : Reached (tcpTransfer toEighty) ((tcpTransfer toEighty).next _ oneByte) := .step (.start begun) ⟨few,accepted⟩
  have sent := keeps toEighty _ oneByte path ⟨few,accepted⟩ _
    (by rw [push_acknowledged accepted.1 accepted.2]; exact mem_singleton_self _) _ rfl
  rw [send_seqnum toEighty _ _ _ few,send_seqnum toEighty _ _ _ few] at sent
  exact absurd sent (by decide)
end Patmos.Ethlib
