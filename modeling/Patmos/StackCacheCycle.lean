import Patmos.StackCache
namespace Patmos
namespace StackGeometry
section
variable (g : StackGeometry)

theorem burst_pos : 0 < g.burst := Nat.two_pow_pos g.burstBits

theorem burstStart_le (addr : Nat) : g.burstStart addr ≤ addr := Nat.div_mul_le_self addr _

theorem burstStart_exact (addr : Nat) : g.burstStart addr % (4*g.burst) = 0 := Nat.mul_mod_left _ _

theorem below_burst (addr : Nat) : addr < g.burstStart addr+4*g.burst :=
  Nat.lt_div_mul_add (Nat.mul_pos (by decide) g.burst_pos)

theorem word_burst (exact : start % (4*g.burst) = 0) : start/4 % g.burst = 0 ∧ start % 4 = 0 := by
  rw [Nat.mod_mul] at exact
  omega
end
end StackGeometry

namespace StackCache
def settle (c : StackCache) (addr : Nat) : StackCache :=
  {c with rdData := c.memoryBlock addr,rdAddrReg := addr,responseToCPUReg := .null}

-- Where main memory takes over when the spill is complete.
def spillTarget (g : StackGeometry) (c : StackCache) : Nat := if c.isReserveReg then c.stackTopReg+g.size else c.newMemTopReg

theorem writeEnable_eq (g : StackGeometry) (c : StackCache) :
    c.writeEnable g = decide (c.spillTarget g ≤ c.transferAddrReg ∧ c.transferAddrReg < c.memTopReg) := by
  unfold writeEnable spillTarget
  split <;> rfl

attribute [local simp] next settle stateNext stackTopNext memTopNext transferAddrNext rdAddr

section Unwritten
variable {g : StackGeometry} {c : StackCache} {x : StackCacheInput}

section
variable (quiet : x.fromCPU.cmd = .idle)
include quiet

section
variable (unfilled : c.filled x = false)
include unfilled

theorem wrEna_quiet : c.wrEna x = fun _ => false := by
  simp [wrEna,quiet,unfilled]

theorem memoryBlock_quiet : c.memoryBlockNext g x = c.memoryBlock := by
  simp [memoryBlockNext,wrEna_quiet quiet unfilled]

theorem rdData_quiet : c.rdDataNext g x = c.memoryBlock (c.rdAddr g x) := by
  funext i
  simp [rdDataNext,wrEna_quiet quiet unfilled]

theorem next_quiet :
    c.next g x = {c.next g x with
      memoryBlock := c.memoryBlock
      rdData := c.memoryBlock (c.rdAddr g x)
      responseToCPUReg := .null} := by
  simp [quiet,memoryBlock_quiet quiet unfilled,rdData_quiet quiet unfilled]
end

theorem next_refused (waits : c.stateReg = .holdSpill ∨ c.stateReg = .fill)
    (refused : x.toMemory.cmdAccept = false) : c.next g x = c.settle (c.rdAddr g x) := by
  have unfilled : c.filled x = false := by rcases waits with state | state <;> simp [filled,state]
  cases c
  rcases waits with rfl | rfl <;>
    simp [quiet,memoryBlock_quiet quiet unfilled,rdData_quiet quiet unfilled,refused]

theorem next_held (state : c.stateReg = .holdSpill) (runs : x.enaIn = true) (accepted : x.toMemory.cmdAccept = true) :
    c.next g x = {c.settle (g.cell (c.transferAddrReg+4)) with
      stateReg := .spill
      transferAddrReg := c.transferAddrReg+4} := by
  rw [next_quiet quiet (by simp [filled,state])]
  simp [state,runs,accepted]

theorem next_spilled (state : c.stateReg = .spill) (runs : x.enaIn = true) :
    c.next g x = {c.settle (g.cell (c.transferAddrReg+4)) with
      stateReg := if c.burstCounter g = g.burst-1 then .waitSpill else .spill
      transferAddrReg := c.transferAddrReg+4} := by
  rw [next_quiet quiet (by simp [filled,state])]
  simp [state,runs]

theorem next_waits (state : c.stateReg = .waitSpill) (runs : x.enaIn = true) (sound : x.toMemory.resp ≠ .err) :
    c.next g x = {c.settle c.rdAddrReg with
      stateReg := if x.toMemory.resp = .dva then if c.spillingDone then .idle else .holdSpill else .waitSpill
      memTopReg := if c.spillingDone then c.spillTarget g else c.memTopReg} := by
  have unfilled : c.filled x = false := by simp [filled,state]
  cases c
  subst state
  cases resp : x.toMemory.resp <;>
    simp_all [memoryBlock_quiet quiet unfilled,rdData_quiet quiet unfilled,spillTarget]

theorem next_requests (state : c.stateReg = .fill) (runs : x.enaIn = true) (accepted : x.toMemory.cmdAccept = true) :
    c.next g x = {c.settle (c.relAddr g x) with stateReg := .waitFill} := by
  rw [next_quiet quiet (by simp [filled,state])]
  simp [state,runs,accepted]

theorem next_awaits (state : c.stateReg = .waitFill) (silent : x.toMemory.resp = .null) :
    c.next g x = c.settle (c.relAddr g x) := by
  rw [next_quiet quiet (by simp [filled,silent])]
  simp [state,silent]

theorem next_filled (state : c.stateReg = .waitFill) (runs : x.enaIn = true) (data : x.toMemory.resp = .dva) :
    c.next g x = {c with
      stateReg := if c.burstCounter g = g.burst-1 then if c.fillingDone then .idle else .fill else .waitFill
      memTopReg := if c.fillingDone then c.newMemTopReg else c.memTopReg
      transferAddrReg := c.transferAddrReg+4
      memoryBlock := if c.memTopReg ≤ c.transferAddrReg ∧ c.fillingDone = false
        then Function.update c.memoryBlock (g.cell c.transferAddrReg) x.toMemory.data else c.memoryBlock
      rdData := c.rdDataNext g x
      rdAddrReg := c.relAddr g x
      responseToCPUReg := .null} := by
  have filling : c.filled x = true := by simp [filled,state,data]
  have block : c.memoryBlockNext g x = if c.memTopReg ≤ c.transferAddrReg ∧ c.fillingDone = false
      then Function.update c.memoryBlock (g.cell c.transferAddrReg) x.toMemory.data else c.memoryBlock := by
    simp only [memoryBlockNext,wrAddr,wrData,wrEna,filling,quiet]
    cases complete : c.fillingDone <;> by_cases above : c.memTopReg ≤ c.transferAddrReg <;> simp [above]
  cases c
  subst state
  simp [quiet,block,runs,data]

section
variable (state : c.stateReg = .idle)
include state

theorem next_rests (rests : x.enaIn = false ∨ x.op = .none) :
    c.next g x = {c.settle (c.rdAddr g x) with
      isReserveReg := (c.next g x).isReserveReg
      newMemTopReg := (c.next g x).newMemTopReg} := by
  have unfilled : c.filled x = false := by simp [filled,state]
  cases c
  subst state
  rcases rests with stalled | other <;>
    simp [memoryBlock_quiet quiet unfilled,rdData_quiet quiet unfilled, *]

theorem next_ens (runs : x.enaIn = true) (op : x.op = .ens) :
    c.next g x = {c.settle (c.relAddr g x) with
      stateReg := if c.stackAboveMem x then .fill else .idle
      transferAddrReg := g.burstStart c.memTopReg
      newMemTopReg := c.stackTopInc x} := by
  rw [next_quiet quiet (by simp [filled,state])]
  simp [state,runs,op]

theorem next_free (runs : x.enaIn = true) (op : x.op = .free) :
    c.next g x = {c.settle (c.relAddr g x) with
      stackTopReg := c.stackTopInc x
      memTopReg := if c.stackAboveMem x then c.stackTopInc x else c.memTopReg} := by
  rw [next_quiet quiet (by simp [filled,state])]
  simp [state,runs,op]

theorem next_res (runs : x.enaIn = true) (op : x.op = .res) :
    c.next g x = {c.settle (g.cell (g.burstStart (c.nextStackTop x+g.size))) with
      stateReg := if c.needsSpill g x then .holdSpill else .idle
      isReserveReg := true
      stackTopReg := c.nextStackTop x
      transferAddrReg := g.burstStart (c.nextStackTop x+g.size)} := by
  rw [next_quiet quiet (by simp [filled,state])]
  simp [state,spillStart,runs,op]

theorem next_spill (runs : x.enaIn = true) (op : x.op = .spill) :
    c.next g x = {c.settle (g.cell (g.burstStart (c.nextNewMemTop x))) with
      stateReg := .holdSpill
      isReserveReg := false
      transferAddrReg := g.burstStart (c.nextNewMemTop x)
      newMemTopReg := c.nextNewMemTop x} := by
  rw [next_quiet quiet (by simp [filled,state])]
  simp [state,spillStart,runs,op]
end
end

theorem next_accessed (state : c.stateReg = .idle) (command : x.fromCPU.cmd ≠ .idle) (other : x.op = .none) :
    c.next g x = {c with
      memoryBlock := if x.fromCPU.cmd = .wr then Function.update c.memoryBlock (c.relAddr g x)
        (BurstMemory.merge (c.memoryBlock (c.relAddr g x)) x.fromCPU.data x.fromCPU.byteEn) else c.memoryBlock
      rdData := c.rdDataNext g x
      rdAddrReg := c.relAddr g x
      responseToCPUReg := .dva} := by
  have unfilled : c.filled x = false := by simp [filled,state]
  have block : c.memoryBlockNext g x = if x.fromCPU.cmd = .wr then Function.update c.memoryBlock (c.relAddr g x)
      (BurstMemory.merge (c.memoryBlock (c.relAddr g x)) x.fromCPU.data x.fromCPU.byteEn) else c.memoryBlock := by
    by_cases store : x.fromCPU.cmd = .wr <;> simp [memoryBlockNext,wrAddr,wrData,wrEna,unfilled,store]
  cases c
  subst state
  simp [command,other,block]

theorem rdData_load (state : c.stateReg = .idle) (load : x.fromCPU.cmd = .rd) (other : x.op = .none) :
    c.rdDataNext g x = c.memoryBlock (c.relAddr g x) := by
  funext i
  simp [rdDataNext,wrEna,filled,state,load,other]
end Unwritten
end StackCache
end Patmos
