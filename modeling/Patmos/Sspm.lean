import Patmos.SharedSpm
namespace Patmos
open Transition Register PortHistory

inductive ConnectorState where
  | sIdle
  | sWaiting
  deriving DecidableEq, Repr

structure SspmM where
  data : Word 4
  addr : Nat
  byteEn : ByteEn 4
  we : Bool

structure SspmConnector where
  respReg : OcpResp
  writeEnableReg : Bool
  mAddrReg : Nat
  mDataReg : Word 4
  mByteEnReg : ByteEn 4
  prevConnectorEnable1 : Bool
  prevConnectorEnable : Bool
  state : ConnectorState
  syncReqReg : Bool

namespace SspmConnector
section
variable (c : SspmConnector) (enable : Bool)

def m : SspmM := ⟨c.mDataReg,c.mAddrReg,c.mByteEnReg,c.writeEnableReg⟩

-- Address bits 15 to 2 are all set.
def syncs (m : OcpCoreMasterSignals 4) : Bool := m.cmd ≠ .idle ∧ m.addr/4 % 2^14 = 2^14-1

def plain : Bool := enable && !c.syncReqReg
def synchronised : Bool := enable && !c.prevConnectorEnable && c.syncReqReg
def serves : Bool := c.plain enable || c.synchronised enable

def next (m : OcpCoreMasterSignals 4) (enable : Bool) : SspmConnector :=
  let holds : Bool := c.state = .sWaiting && !c.serves enable
  { respReg := if c.state = .sWaiting ∧ c.serves enable then .dva else .null
    writeEnableReg := if holds then c.writeEnableReg else m.cmd = .wr
    mAddrReg := if holds then c.mAddrReg else m.addr
    mDataReg := if holds then c.mDataReg else m.data
    mByteEnReg := if holds then c.mByteEnReg else m.byteEn
    prevConnectorEnable1 := enable
    prevConnectorEnable := c.prevConnectorEnable1
    state :=
      match c.state with
      | .sIdle => if m.cmd = .rd ∨ m.cmd = .wr then .sWaiting else .sIdle
      | .sWaiting => if c.serves enable then .sIdle else .sWaiting
    syncReqReg := if c.state = .sWaiting ∧ c.synchronised enable then false else if syncs m then true else c.syncReqReg }
end
end SspmConnector

-- The four byte memories. The read address is registered, not the data.
structure MemSpm where
  syncMem : Nat → Word 4
  rdAddrReg : Nat

namespace MemSpm
def size : Nat := 16384

def index (addr : Nat) : Nat := addr % 2^log2Up size/4

def data (p : MemSpm) : Word 4 := p.syncMem p.rdAddrReg

def next (p : MemSpm) (m : SspmM) : MemSpm where
  syncMem := Function.update p.syncMem (index m.addr)
    (BurstMemory.merge (p.syncMem (index m.addr)) m.data fun b => m.we && m.byteEn b)
  rdAddrReg := index m.addr
end MemSpm

namespace Sspm
structure Config where
  nCores : Nat
  extendedSlotSize : Nat
  singleExtendedSlot : Bool
  several : 2 ≤ nCores
  lasting : 1 ≤ extendedSlotSize
end Sspm

inductive SyncState where
  | sIdle
  | sSync
  deriving DecidableEq, Repr

structure SspmAegean (c : Sspm.Config) where
  nextCore : Nat
  currentCore : Nat
  state : SyncState
  syncCounter : Nat
  syncUsed : Bool
  syncCore : Nat
  connectors : Fin c.nCores → SspmConnector
  mem : MemSpm

-- What an index beyond the last connector gives.
structure Stray where
  m : SspmM
  syncReq : Bool

namespace SspmAegean
variable {c : Sspm.Config}

section
variable (d : SspmAegean c) (stray : Stray) (j : Fin c.nCores)

def selected : Stray :=
  if inside : d.currentCore < c.nCores then
    ⟨(d.connectors ⟨d.currentCore,inside⟩).m,(d.connectors ⟨d.currentCore,inside⟩).syncReqReg⟩
  else stray

def refuses : Bool := (d.selected stray).syncReq && (c.singleExtendedSlot && d.syncUsed)
def begins : Bool := (d.selected stray).syncReq && !(c.singleExtendedSlot && d.syncUsed)

def enable : Bool :=
  d.currentCore = j &&
    match d.state with
    | .sIdle => !d.refuses stray
    | .sSync => true
end

def next (d : SspmAegean c) (m : Fin c.nCores → OcpCoreMasterSignals 4) (stray : Stray) : SspmAegean c where
  nextCore :=
    match d.state with
    | .sIdle =>
      if c.nCores-1 < d.nextCore then 0
      else if d.begins stray then d.nextCore else (d.nextCore+1) % 2^log2Up c.nCores
    | .sSync => if d.syncCounter = 0 then (d.nextCore+1) % 2^log2Up c.nCores else d.nextCore
  currentCore :=
    match d.state with
    | .sIdle => if d.begins stray then d.currentCore else d.nextCore
    | .sSync => if d.syncCounter = 0 then d.nextCore else d.currentCore
  state :=
    match d.state with
    | .sIdle => if d.begins stray then .sSync else .sIdle
    | .sSync => if d.syncCounter = 0 then .sIdle else .sSync
  syncCounter :=
    match d.state with
    | .sIdle => if d.begins stray then c.extendedSlotSize-1 else d.syncCounter
    | .sSync => if d.syncCounter = 0 then 2^log2Up c.extendedSlotSize-1 else d.syncCounter-1
  syncUsed :=
    match d.state with
    | .sIdle => if c.singleExtendedSlot ∧ d.currentCore = d.syncCore then false else d.syncUsed
    | .sSync => if c.singleExtendedSlot then true else d.syncUsed
  syncCore :=
    match d.state with
    | .sIdle => d.syncCore
    | .sSync => if c.singleExtendedSlot then d.currentCore else d.syncCore
  connectors j := (d.connectors j).next (m j) (d.enable stray j)
  mem := d.mem.next (d.selected stray).m
end SspmAegean
end Patmos
