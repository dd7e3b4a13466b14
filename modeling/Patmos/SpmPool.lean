import Patmos.Allocation
import Patmos.CircularPriority
import Patmos.SharedSpm
namespace Patmos
open Transition Register PortHistory Allocation

namespace SpmPool
def spmcntmax : Nat := 15
def spmaddrwidth : Nat := 4
def spmdataaddrwidth : Nat := 12

structure Config where
  cores : Nat
  spmcnt : Nat
  spmsize : Nat
  several : 1 ≤ cores
  present : 1 ≤ spmcnt
  few : spmcnt ≤ spmcntmax
  small : spmsize ≤ 4096

abbrev Config.Core (c : Config) := Fin (c.cores+1)

def spmsel (addr : Nat) : Nat := addr/2^spmdataaddrwidth % 2^spmaddrwidth

-- Address bits 11 to 2, with which the control interface selects a schedule.
def schedsel (addr : Nat) : Nat := addr % 2^spmdataaddrwidth/4

-- A word as the number n, and as a set of cores.
def wordOf (n : Nat) : Word 4 := fun b => BitVec.ofNat 8 (n/2^(8*b.val))

def coresOf (data : Word 4) (i : Fin n) : Bool :=
  if inside : i.val/8 < 4 then (data ⟨i.val/8,inside⟩).getLsbD (i.val % 8) else false

-- The response that has the two lowest bits of a schedule as its code.
def respOf (low high : Bool) : OcpResp :=
  match high,low with
  | false,false => .null
  | false,true => .dva
  | true,false => .fail
  | true,true => .err
end SpmPool

-- The arbiter always continues with the next core of the schedule.
structure TdmSpm (cores : Nat) where
  curReg : Fin (cores+1)
  lst : Fin (cores+1)
  cmdReg : OcpCmd
  spm : Spm

namespace TdmSpm
variable {cores : Nat}

def hi (sched : Fin (cores+1) → Bool) (curReg j : Fin (cores+1)) : Bool := sched j && curReg < j
def lo (sched : Fin (cores+1) → Bool) (curReg j : Fin (cores+1)) : Bool := sched j && j ≤ curReg

def roundRobinArbiter (sched : Fin (cores+1) → Bool) (curReg : Fin (cores+1)) : Fin (cores+1) :=
  if ∃ j, hi sched curReg j = true then CircularPriority.encode cores (hi sched curReg)
  else CircularPriority.encode cores (lo sched curReg)

def next (size : Nat) (t : TdmSpm cores) (sched : Fin (cores+1) → Bool) (m : Fin (cores+1) → OcpCoreMasterSignals 4)
    (undefined : Word 4) : TdmSpm cores where
  curReg := roundRobinArbiter sched t.curReg
  lst := t.curReg
  cmdReg := (m t.curReg).cmd
  spm := t.spm.next size (SharedSpm.memM size (m t.curReg)) undefined

def coreS (size : Nat) (t : TdmSpm cores) (i : Fin (cores+1)) : OcpSlaveSignals 4 :=
  ⟨if t.lst = i then if t.cmdReg = .wr ∨ t.cmdReg = .rd then .dva else .null else .null,t.spm.data size⟩
end TdmSpm

-- `beyond` is what a core sees whose address selects no SPM.
structure SpmPool (c : SpmPool.Config) where
  spms : Fin c.spmcnt → TdmSpm c.cores
  spmscheds : Fin c.spmcnt → c.Core → Bool
  respRegs : c.Core → OcpResp
  dataRegs : c.Core → Word 4
  mReg : c.Core → OcpCoreMasterSignals 4
  cur : Nat
  beyond : c.Core → OcpSlaveSignals 4

namespace SpmPool
variable {c : Config}

-- The commands of the cores, and what indices beyond the last element and bytes that are read while they are written
-- give.
structure Cycle (c : Config) where
  m : c.Core → OcpCoreMasterSignals 4
  undefined : Fin c.spmcnt → Word 4
  stray : OcpCoreMasterSignals 4
  strayResp : OcpResp
  beyond : c.Core → OcpSlaveSignals 4

def m (d : SpmPool c) (x : Cycle c) (i : c.Core) : OcpCoreMasterSignals 4 := if (x.m i).cmd = .idle then d.mReg i else x.m i

def select (sel : Nat) (m : OcpCoreMasterSignals 4) : OcpCoreMasterSignals 4 :=
  {m with cmd := if spmsel m.addr = sel then m.cmd else .idle}

def coreS (d : SpmPool c) (i : c.Core) : OcpSlaveSignals 4 :=
  let spmselReg := spmsel (d.mReg i).addr
  if spmselReg = spmcntmax then ⟨d.respRegs i,d.dataRegs i⟩
  else if inside : spmselReg < c.spmcnt then (d.spms ⟨spmselReg,inside⟩).coreS c.spmsize i
  else d.beyond i

section
variable (d : SpmPool c) (x : Cycle c)

def avails (j : Fin c.spmcnt) : Bool := ∀ i, d.spmscheds j i = false

-- Without an available SPM there is no nxtavail.
def nxtavail : Option (Fin c.spmcnt) := (List.finRange c.spmcnt).find? d.avails

def curio : OcpCoreMasterSignals 4 := if inside : d.cur < c.cores+1 then select spmcntmax (d.m x ⟨d.cur,inside⟩) else x.stray

def respCur : OcpResp :=
  if schedsel (d.curio x).addr = spmcntmax then .dva
  else if (d.curio x).cmd = .wr then .dva
  else if inside : schedsel (d.curio x).addr < c.spmcnt then
    respOf (d.spmscheds ⟨_,inside⟩ ⟨0,Nat.succ_pos _⟩) (d.spmscheds ⟨_,inside⟩ ⟨1,Nat.succ_lt_succ c.several⟩)
  else x.strayResp

def schedNext (j : Fin c.spmcnt) : c.Core → Bool :=
  if (d.curio x).cmd = .idle then d.spmscheds j
  else if schedsel (d.curio x).addr = spmcntmax then if d.nxtavail = some j then fun i => i.val = d.cur else d.spmscheds j
  else if (d.curio x).cmd = .wr ∧ schedsel (d.curio x).addr = j then coresOf (d.curio x).data else d.spmscheds j

def dataNext (i : c.Core) : Word 4 :=
  if d.cur = i ∧ (d.curio x).cmd ≠ .idle ∧ schedsel (d.curio x).addr = spmcntmax then
    match d.nxtavail with
    | some j => wordOf j
    | none => d.dataRegs i
  else d.dataRegs i
end

def next (d : SpmPool c) (x : Cycle c) : SpmPool c where
  spms j := (d.spms j).next c.spmsize (d.spmscheds j) (fun i => select j (d.m x i)) (x.undefined j)
  spmscheds := d.schedNext x
  respRegs i := if d.cur = i ∧ (d.curio x).cmd ≠ .idle then d.respCur x else .null
  dataRegs := d.dataNext x
  mReg i := if (x.m i).cmd ≠ .idle ∨ (d.coreS i).resp ≠ .null then x.m i else d.mReg i
  cur := if d.cur = c.cores+1 then 0 else (d.cur+1) % 2^log2Up (c.cores+1)
  beyond := x.beyond
end SpmPool
end Patmos
