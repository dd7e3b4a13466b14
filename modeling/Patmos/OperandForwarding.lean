import Patmos.Pipeline
namespace Patmos.Core.OperandForwarding
open Transition RegisterFile Pipeline Tracked Execute

abbrev Registers := BitVec 5 → BitVec 32

-- The registers and the predicates as the bundles leave them, one after another.
structure Sequential where
  regs : Registers
  preds : BitVec 3 → Bool

-- A bundle in the execute stage, with what it can read besides registers and predicates.
structure Executed where
  stage : Execute
  flush : Bool
  around : Surroundings

section
variable (rule : BitVec 32 → BitVec 32 → BitVec 32) (regs : Registers) (rd : Fin 2 → Result)

def operand (d : DecEx) (k j : Fin 2) : BitVec 32 :=
  if j = 1 ∧ (d.issue k).immOp then (d.issue k).immVal
  else if (d.issue k).rsAddr j = 0 then 0 else regs ((d.issue k).rsAddr j)

-- The rule gives the value of a register that both pipelines write.
def writeBoth : Registers := fun addr =>
  if (rd 0).writes addr then if (rd 1).writes addr then rule (rd 0).data (rd 1).data else (rd 0).data
  else if (rd 1).writes addr then (rd 1).data else regs addr

def Sequential.step (q : Sequential) (x : Executed) : Sequential :=
  let e := {x.stage with predReg := q.preds}
  let op := operand q.regs e.exReg
  ⟨writeBoth rule q.regs (e.rd op x.flush x.around),e.predNext op x.flush⟩

def executed (t : Tracked) (x : Cycle) : List Executed :=
  if t.core.enable x then [⟨t.core.execute,t.core.flush,x.around⟩] else []

-- The registers with the results in the memory stage written back.
def writtenBack (s : Pipeline) : Registers := write s.rf.rf s.memory.memReg.rd

structure Agrees (t : Tracked) (q : Sequential) : Prop where
  operands : t.inExecute = true → ∀ k j, t.core.execute.op k j = operand q.regs t.core.execute.exReg k j
  registers : ∀ addr, writtenBack t.core addr = q.regs addr

def InOrder (m : System Tracked Cycle) : Prop :=
  ∀ t inputs, m.start t → m.Admits t inputs →
    Agrees (m.run t inputs)
      ((m.record executed t inputs).foldl (Sequential.step rule) ⟨t.core.rf.rf,t.core.execute.predReg⟩)

def NoLoad (t : Tracked) (x : Cycle) : Prop := (t.core.exmem x).mem.load = false

def Separate : Prop := ¬((rd 0).valid = true ∧ (rd 1).valid = true ∧ (rd 0).addr = (rd 1).addr)
end

-- The bundle in the execute stage does not write one register twice.
def Apart (t : Tracked) (x : Cycle) : Prop := Separate (t.core.exmem x).rd

def unloaded (offBits : Nat) : System Tracked Cycle := (Tracked.system offBits).restrict NoLoad

section Results
variable {rd : Fin 2 → Result} {addr : BitVec 5} {rf : Registers}

theorem separate_writes (separate : Separate rd) (first : (rd 0).writes addr = true) : (rd 1).writes addr = false := by
  simp only [Result.writes,Bool.and_eq_true,beq_iff_eq] at first
  cases second : (rd 1).writes addr with
  | false => rfl
  | true =>
    simp only [Result.writes,Bool.and_eq_true,beq_iff_eq] at second
    exact absurd ⟨first.2,second.2,first.1.symm.trans second.1⟩ separate

theorem write_some (separate : Separate rd) (found : writer rd addr = some i) : write rf rd addr = (rd i).data := by
  unfold writer at found
  unfold write
  cases first : (rd 0).writes addr with
  | true =>
    rw [separate_writes separate first] at found
    simp only [first,Bool.false_eq_true,if_false,if_true,Option.some.injEq] at found
    rw [← found,if_pos rfl]
  | false =>
    cases second : (rd 1).writes addr with
    | true =>
      simp only [second,if_true,Option.some.injEq] at found
      simp [← found]
    | false => simp [first,second] at found

theorem write_none (missing : writer rd addr = none) : write rf rd addr = rf addr := by
  unfold writer at missing
  unfold write
  cases first : (rd 0).writes addr <;> cases second : (rd 1).writes addr <;> simp [first,second] at missing ⊢

section
variable (rule : BitVec 32 → BitVec 32 → BitVec 32) (rf : Registers)

theorem write_twice (rd : Fin 2 → Result) : write (write rf rd) rd = write rf rd := by
  funext addr
  unfold write
  split
  · rfl
  · split <;> rfl

theorem write_invalid (invalid : ∀ k, (rd k).valid = false) : write rf rd = rf := by
  funext addr
  simp [write,Result.writes,invalid]

theorem writeBoth_invalid (invalid : ∀ k, (rd k).valid = false) : writeBoth rule rf rd = rf := by
  funext addr
  simp [writeBoth,Result.writes,invalid]

theorem writeBoth_separate (separate : Separate rd) : writeBoth rule rf rd = write rf rd := by
  funext addr
  unfold writeBoth write
  split
  next first =>
    rw [separate_writes separate first]
    rfl
  next => rfl
end

theorem writer_valid (found : writer rd addr = some i) : (rd i).valid = true ∧ (rd i).addr = addr := by
  unfold writer at found
  split at found
  next second =>
    cases found
    simp only [Result.writes,Bool.and_eq_true,beq_iff_eq] at second
    exact ⟨second.2,second.1.symm⟩
  next =>
    split at found
    next first =>
      cases found
      simp only [Result.writes,Bool.and_eq_true,beq_iff_eq] at first
      exact ⟨first.2,first.1.symm⟩
    next => cases found
end Results

-- A bundle that was not fetched has no effect that depends on its operands.
def Quiet (d : Issue) : Prop :=
  d.wrRd = false ∧ d.aluOp.isCmp = false ∧ d.aluOp.isPred = false ∧ d.aluOp.isMTS = false

def Harmless (e : Execute) : Prop := ∀ k, predOperand e.predReg (e.exReg.issue k).pred = false ∨ Quiet (e.exReg.issue k)

structure Valid (t : Tracked) : Prop where
  noLoad : t.core.memory.memReg.mem.load = false
  separate : Separate t.core.memory.memReg.rd
  memSparing : ∀ k, (t.core.memory.memReg.rd k).valid = true → (t.core.memory.memReg.rd k).addr ≠ 0
  exSparing : ∀ k, predOperand t.core.execute.predReg (t.core.execute.exReg.issue k).pred = true →
    (t.core.execute.exReg.issue k).wrRd = true → (t.core.execute.exReg.issue k).rdAddr ≠ 0
  -- What was read is in the register file, or is about to be overwritten there.
  read : t.inDecode = true → ∀ k j, t.core.rf.addrReg k j ≠ 0 → writer t.core.memory.memReg.rd (t.core.rf.addrReg k j) = none →
    t.core.rf.rsData k j = t.core.rf.rf (t.core.rf.addrReg k j)
  addressed : t.inDecode = true → ∀ k j, rsAddr (t.core.decode.decReg.instr k) j = t.core.rf.addrReg k j
  empty : t.inDecode = false → t.core.decode.decReg.instrA = 0 ∧ t.core.decode.decReg.instrB = 0
  operands : t.inExecute = true → t.core.execute.op = operand (writtenBack t.core) t.core.execute.exReg
  harmless : t.inExecute = false → Harmless t.core.execute

section Effects
variable {e : Execute} {op op' : Fin 2 → Fin 2 → BitVec 32} {flush : Bool}

theorem harmless_rd (harmless : Harmless e) (op : Fin 2 → Fin 2 → BitVec 32) (flush : Bool) (x : Surroundings) (k : Fin 2) :
    (e.rd op flush x k).valid = false := by
  unfold rd doExecute
  cases harmless k with
  | inl dead => simp [dead]
  | inr quiet => simp [quiet.1]

theorem harmless_predAfter (harmless : Harmless e) (k : Fin 2) (preds : BitVec 3 → Bool) :
    e.predAfter op flush k preds = e.predAfter op' flush k preds := by
  unfold predAfter writesSpecial doExecute
  cases harmless k with
  | inl dead => simp [dead]
  | inr quiet => simp [quiet.2.1,quiet.2.2.2]

theorem harmless_predNext (harmless : Harmless e) : e.predNext op flush = e.predNext op' flush := by
  unfold predNext
  rw [harmless_predAfter harmless 0,harmless_predAfter harmless 1]
end Effects

section Step
variable {t : Tracked} {x : Cycle} {offBits : Nat}

theorem memory_rd (valid : Valid t) : t.core.memory.rd x.dout = t.core.memory.memReg.rd := by
  funext k
  simp [Memory.rd,valid.noLoad]

theorem writtenBack_held (valid : Valid t) (held : t.core.enable x = false) :
    writtenBack (t.core.next x offBits) = writtenBack t.core := by
  unfold writtenBack
  rw [held_memReg held]
  show write (write t.core.rf.rf (t.core.memory.rd x.dout)) _ = _
  rw [memory_rd valid,write_twice]

theorem flushed_rd (flushed : t.core.flush = true) (k : Fin 2) : ((t.core.exmem x).rd k).valid = false := by
  simp [Pipeline.exmem,Execute.exmem,Execute.rd,Execute.doExecute,flushed]

theorem writtenBack_goes (valid : Valid t) (goes : t.core.enable x = true) :
    writtenBack (t.core.next x offBits) = write (writtenBack t.core) (t.core.exmem x).rd := by
  unfold writtenBack
  rw [next_memReg,if_pos goes]
  show write (write t.core.rf.rf (t.core.memory.rd x.dout)) _ = _
  rw [memory_rd valid]
  split
  next flushed =>
    rw [write_invalid _ (flushed_rd flushed),write_invalid]
    intro k
    rfl
  next => rfl

theorem view_goes (rule : BitVec 32 → BitVec 32 → BitVec 32) (valid : Valid t) (apart : Apart t x) (goes : t.core.enable x = true) :
    (⟨writtenBack (t.core.next x offBits),(t.core.next x offBits).execute.predReg⟩ : Sequential) =
      Sequential.step rule ⟨writtenBack t.core,t.core.execute.predReg⟩ ⟨t.core.execute,t.core.flush,x.around⟩ := by
  rw [writtenBack_goes valid goes,next_predReg,if_pos goes]
  unfold Sequential.step
  dsimp only
  by_cases fetched : t.inExecute = true
  · rw [← valid.operands fetched]
    exact congrArg₂ Sequential.mk (writeBoth_separate rule _ apart).symm rfl
  · have harmless := valid.harmless (by simpa using fetched)
    have nothing : ∀ k, ((t.core.exmem x).rd k).valid = false := harmless_rd harmless _ _ _
    rw [writeBoth_invalid rule _ (harmless_rd harmless _ _ _),write_invalid _ nothing]
    exact congrArg _ (harmless_predNext harmless)

theorem next_op_held (held : t.core.enable x = false) : (t.core.next x offBits).execute.op = t.core.execute.op := by
  have ena : ((t.core.executeIn x).enaIn && t.core.execute.enableCop (t.core.executeIn x).flush x.around) = false := held
  funext k j
  simp only [Execute.op,Pipeline.next,Execute.next,ena,Bool.false_eq_true,if_false]

theorem next_read_goes (valid : Valid t) (goes : t.core.enable x = true) (used : (t.core.next x offBits).rf.addrReg k j ≠ 0) :
    (t.core.next x offBits).rf.rsData k j = (t.core.next x offBits).rf.rf ((t.core.next x offBits).rf.addrReg k j) := by
  have addrReg : (t.core.next x offBits).rf.addrReg = readAddr x := if_pos goes
  have wrReg : (t.core.next x offBits).rf.wrReg = t.core.memory.rd x.dout := if_pos goes
  have fwReg : (t.core.next x offBits).rf.fwReg = fun k j i => (t.core.memory.rd x.dout i).writes (readAddr x k j) :=
    if_pos goes
  have rf : (t.core.next x offBits).rf.rf = write t.core.rf.rf (t.core.memory.rd x.dout) := rfl
  rw [addrReg] at used ⊢
  unfold rsData
  rw [addrReg,wrReg,fwReg,rf,if_neg used,memory_rd valid]
  have separate := valid.separate
  unfold write
  cases first : (t.core.memory.memReg.rd 0).writes (readAddr x k j) with
  | true => simp [separate_writes separate first]
  | false => cases second : (t.core.memory.memReg.rd 1).writes (readAddr x k j) <;> simp [first,second]

theorem next_read_held (valid : Valid t) (held : t.core.enable x = false) (inDecode : t.inDecode = true) (k j : Fin 2)
    (used : t.core.rf.addrReg k j ≠ 0) (missing : writer t.core.memory.memReg.rd (t.core.rf.addrReg k j) = none) :
    (t.core.next x offBits).rf.rsData k j = (t.core.next x offBits).rf.rf (t.core.rf.addrReg k j) := by
  have stays : (t.core.next x offBits).rf = {t.core.rf with rf := (t.core.next x offBits).rf.rf} := by
    simp [Pipeline.next,RegisterFile.next,held]
  have kept : (t.core.next x offBits).rf.rf (t.core.rf.addrReg k j) = t.core.rf.rf (t.core.rf.addrReg k j) := by
    show RegisterFile.write t.core.rf.rf (t.core.memory.rd x.dout) _ = _
    rw [memory_rd valid,write_none missing]
  have before := valid.read inDecode k j used missing
  rw [stays]
  unfold RegisterFile.rsData at before ⊢
  rw [kept]
  exact before

theorem op_enters (e : Execute) (i : ExecuteIn) (x : Surroundings) (goes : (i.enaIn && e.enableCop i.flush x) = true)
    (keeps : (i.flush || i.brflush) = false) (k j : Fin 2) :
    (e.next i x).op k j =
      if j = 1 ∧ (i.decex.issue k).immOp then (i.decex.issue k).immVal
      else match writer i.exResult ((i.decex.issue k).rsAddr j) with
      | some n => (i.exResult n).data
      | none =>
        match writer i.memResult ((i.decex.issue k).rsAddr j) with
        | some n => (i.memResult n).data
        | none => (i.decex.issue k).rsData j := by
  simp only [Execute.op,Execute.next,goes,if_true,Execute.exRegNext,keeps,Bool.false_eq_true,if_false,Execute.forward]
  by_cases imm : j = 1 ∧ (i.decex.issue k).immOp = true
  · simp only [if_pos imm]
  · simp only [if_neg imm]
    cases writer i.exResult ((i.decex.issue k).rsAddr j) with
    | some n => rfl
    | none =>
      cases writer i.memResult ((i.decex.issue k).rsAddr j) with
      | some n | none => rfl

theorem next_op_goes (valid : Valid t) (apart : Apart t x) (sparing : ∀ k, ((t.core.exmem x).rd k).valid = true →
    ((t.core.exmem x).rd k).addr ≠ 0) (goes : t.core.enable x = true) (fetched : (t.next x offBits).inExecute = true) :
    (t.core.next x offBits).execute.op =
      operand (writtenBack (t.core.next x offBits)) (t.core.next x offBits).execute.exReg := by
  obtain ⟨⟨inDecode,keeps⟩,plain⟩ : (t.inDecode = true ∧ t.flushes = false) ∧ t.injects = false := by
    simpa [Tracked.next,goes] using fetched
  have exReg : (t.core.next x offBits).execute.exReg = t.core.decex := by
    rw [next_exReg,if_pos goes,if_neg (by simpa [flushes] using keeps)]
  have decoded : t.core.decex = decode t.core.exc.excdec.inLocal t.core.decode.decReg t.core.rf.rsData :=
    if_neg (by simpa [injects] using plain)
  funext k j
  have address : (t.core.decex.issue k).rsAddr j = t.core.rf.addrReg k j := by
    rw [decoded,(decode_rs _ _ _ k j).1]
    exact valid.addressed inDecode k j
  have data : (t.core.decex.issue k).rsData j = t.core.rf.rsData k j := by
    rw [decoded]
    exact (decode_rs _ _ _ k j).2
  have entered : (t.core.next x offBits).execute.op k j =
      if j = 1 ∧ (t.core.decex.issue k).immOp then (t.core.decex.issue k).immVal
      else match writer (t.core.exmem x).rd ((t.core.decex.issue k).rsAddr j) with
      | some n => ((t.core.exmem x).rd n).data
      | none =>
        match writer (t.core.memory.rd x.dout) ((t.core.decex.issue k).rsAddr j) with
        | some n => (t.core.memory.rd x.dout n).data
        | none => (t.core.decex.issue k).rsData j :=
    op_enters t.core.execute (t.core.executeIn x) x.around goes keeps k j
  rw [entered,exReg,writtenBack_goes valid goes]
  unfold operand
  by_cases imm : j = 1 ∧ (t.core.decex.issue k).immOp = true
  · rw [if_pos imm,if_pos imm]
  rw [if_neg imm,if_neg imm,memory_rd valid]
  cases newest : writer (t.core.exmem x).rd ((t.core.decex.issue k).rsAddr j) with
  | some n =>
    obtain ⟨active,writes⟩ := writer_valid newest
    rw [if_neg (writes ▸ sparing n active),write_some apart newest]
  | none =>
    rw [write_none newest]
    cases older : writer t.core.memory.memReg.rd ((t.core.decex.issue k).rsAddr j) with
    | some n =>
      obtain ⟨active,writes⟩ := writer_valid older
      rw [if_neg (writes ▸ valid.memSparing n active)]
      exact (write_some valid.separate older).symm
    | none =>
      rw [show writtenBack t.core _ = _ from write_none older]
      rw [data]
      rw [address] at older ⊢
      by_cases zero : t.core.rf.addrReg k j = 0
      · rw [if_pos zero]
        exact if_pos zero
      · rw [if_neg zero]
        exact valid.read inDecode k j zero older

theorem exceptionCall_quiet (exc : ExcDec) (dec : FeDec) (k : Fin 2) : Quiet ((exceptionCall exc dec).issue k) := by
  match k with
  | 0 | 1 => exact ⟨rfl,rfl,rfl,rfl⟩

theorem bubble_quiet (inLocal : Bool) (dec : FeDec) (data : Fin 2 → Fin 2 → BitVec 32)
    (zero : dec.instrA = 0 ∧ dec.instrB = 0) (k : Fin 2) : Quiet ((decode inLocal dec data).issue k) := by
  have code : opcode 0 = .alui := by decide
  unfold decode decodeFirst decodeBoth decodeIssue
  rw [zero.1,zero.2,code]
  match k with
  | 0 | 1 => simp [DecEx.issue,Issue.sparing,fields,Quiet]

theorem decex_sparing (s : Pipeline) (k : Fin 2) (writes : (s.decex.issue k).wrRd = true) : (s.decex.issue k).rdAddr ≠ 0 := by
  unfold decex Decode.decex at writes ⊢
  split at writes
  · rw [(exceptionCall_quiet _ _ k).1] at writes
    cases writes
  · rw [if_neg (by assumption)]
    exact decode_sparing _ _ _ k writes

theorem exmem_sparing (valid : Valid t) (k : Fin 2) (active : ((t.core.exmem x).rd k).valid = true) :
    ((t.core.exmem x).rd k).addr ≠ 0 := by
  simp only [Pipeline.exmem,Execute.exmem,Execute.rd,Execute.doExecute,Bool.and_eq_true] at active ⊢
  exact valid.exSparing k active.2.2 active.1

theorem valid_held (valid : Valid t) (held : t.core.enable x = false) : Valid (t.next x offBits) := by
  have exReg : (t.next x offBits).core.execute.exReg = t.core.execute.exReg := held_exReg held
  have predReg : (t.next x offBits).core.execute.predReg = t.core.execute.predReg := held_predReg held
  have memReg : (t.next x offBits).core.memory.memReg = t.core.memory.memReg := held_memReg held
  have decode : (t.next x offBits).core.decode = t.core.decode := held_decode held
  have addrReg : (t.next x offBits).core.rf.addrReg = t.core.rf.addrReg := by
    simp [Tracked.next,Pipeline.next,RegisterFile.next,held]
  have inDecode : (t.next x offBits).inDecode = t.inDecode := by simp [Tracked.next,held]
  have inExecute : (t.next x offBits).inExecute = t.inExecute := by simp [Tracked.next,held]
  constructor
  · rw [memReg]
    exact valid.noLoad
  · rw [memReg]
    exact valid.separate
  · rw [memReg]
    exact valid.memSparing
  · rw [exReg,predReg]
    exact valid.exSparing
  · rw [memReg,addrReg,inDecode]
    exact next_read_held valid held
  · rw [inDecode,decode,addrReg]
    exact valid.addressed
  · rw [inDecode,decode]
    exact valid.empty
  · intro fetched
    rw [exReg]
    show (t.core.next x offBits).execute.op = operand (writtenBack (t.core.next x offBits)) _
    rw [next_op_held held,writtenBack_held valid held]
    exact valid.operands (inExecute ▸ fetched)
  · rw [inExecute]
    unfold Harmless
    rw [exReg,predReg]
    exact valid.harmless

theorem next_harmless (valid : Valid t) (sane : t.core.Sane) (goes : t.core.enable x = true)
    (absent : (t.next x offBits).inExecute = false) : Harmless (t.core.next x offBits).execute := by
  intro k
  have predTrue := next_predTrue t.core x sane offBits
  rw [next_exReg,if_pos goes]
  by_cases flushed : (t.core.flush || t.core.brflush) = true
  · rw [if_pos flushed]
    left
    match k with
    | 0 | 1 => exact flushed_pred predTrue
  rw [if_neg flushed]
  right
  by_cases injected : t.injects = true
  · rw [show t.core.decex = exceptionCall t.core.exc.excdec t.core.decode.decReg from if_pos injected]
    exact exceptionCall_quiet _ _ k
  · rw [show t.core.decex = decode _ t.core.decode.decReg t.core.rf.rsData from if_neg injected]
    apply bubble_quiet
    apply valid.empty
    simpa [Tracked.next,goes,Tracked.flushes,flushed,injected] using absent

theorem valid_goes (valid : Valid t) (sane : t.core.Sane) (noLoad : NoLoad t x) (apart : Apart t x)
    (goes : t.core.enable x = true) : Valid (t.next x offBits) := by
  have memReg : (t.next x offBits).core.memory.memReg = if t.core.flush then (t.core.exmem x).flush else t.core.exmem x := by
    show (t.core.next x offBits).memory.memReg = _
    rw [next_memReg,if_pos goes]
  have decReg : (t.next x offBits).core.decode.decReg =
      if t.core.flush || t.core.brflush then (t.core.fetch.fedec x.instrA x.instrB).flush
      else t.core.fetch.fedec x.instrA x.instrB := next_decReg t.core x offBits goes
  have inDecode : (t.next x offBits).inDecode = !t.flushes := by simp [Tracked.next,goes]
  constructor
  · rw [memReg]
    split
    · rfl
    · exact noLoad
  · rw [memReg]
    split
    · intro both
      cases both.1
    · exact apart
  · rw [memReg]
    split
    · intro k active
      cases active
    · exact exmem_sparing valid
  · intro k arms writes
    have dead := flushed_pred (next_predTrue t.core x sane offBits)
    rw [exReg_goes goes] at arms writes ⊢
    split at arms
    next flushed =>
      -- A flushed bundle has the predicate that is never true.
      have pred : (t.core.decex.flush.issue k).pred = predIfFalse := by
        match k with
        | 0 | 1 => rfl
      rw [pred] at arms
      exact absurd (arms.symm.trans dead) (by decide)
    next kept =>
      rw [if_neg kept] at writes ⊢
      exact decex_sparing t.core k writes
  · intro _ k j used _
    exact next_read_goes valid goes used
  · intro fetched k j
    have keeps : t.flushes = false := by simpa [inDecode] using fetched
    rw [decReg,if_neg (by simpa [flushes] using keeps)]
    exact (congrFun (congrFun (if_pos goes : (t.core.next x offBits).rf.addrReg = readAddr x) k) j).symm
  · intro absent
    have flushed : t.flushes = true := by simpa [inDecode] using absent
    rw [decReg,show (t.core.flush || t.core.brflush) = true from flushed]
    exact ⟨rfl,rfl⟩
  · exact next_op_goes valid apart (exmem_sparing valid) goes
  · exact next_harmless valid sane goes
end Step

theorem start_valid (begun : (Tracked.system offBits).start t) : Valid t := by
  obtain ⟨reset,inDecode,inExecute,_⟩ := begun
  have memReg := reset.memReg
  have invalid : ∀ k, (t.core.memory.memReg.rd k).valid = false := by
    intro k
    rw [← memReg]
    rfl
  have dead := flushed_pred reset.predTrue
  constructor
  · rw [← memReg]
    rfl
  · intro both
    rw [invalid 0] at both
    cases both.1
  · intro k active
    rw [invalid k] at active
    cases active
  · intro k arms
    rw [reset.flushed k,dead] at arms
    cases arms
  · intro fetched
    rw [inDecode] at fetched
    cases fetched
  · intro fetched
    rw [inDecode] at fetched
    cases fetched
  · intro _
    exact reset.decoded
  · intro fetched
    rw [inExecute] at fetched
    cases fetched
  · intro _ k
    left
    rw [reset.flushed k]
    exact dead

theorem reached_valid (path : Reached ((unloaded offBits).restrict Apart) t) : Valid t ∧ t.core.Sane := by
  induction path with
  | start begun => exact ⟨start_valid (show (Tracked.system offBits).start _ from begun),Pipeline.reset_sane _ begun.1⟩
  | @step t x _ admitted ih =>
    obtain ⟨⟨_,noLoad⟩,apart⟩ := admitted
    refine ⟨?_,Pipeline.next_sane t.core x ih.2 offBits⟩
    cases goes : t.core.enable x with
    | true => exact valid_goes ih.1 ih.2 noLoad apart goes
    | false => exact valid_held ih.1 goes

def view (t : Tracked) : Sequential := ⟨writtenBack t.core,t.core.execute.predReg⟩

theorem start_view (begun : (Tracked.system offBits).start t) : view t = ⟨t.core.rf.rf,t.core.execute.predReg⟩ := by
  unfold view writtenBack
  rw [write_invalid]
  intro k
  rw [← begun.1.memReg]
  rfl

theorem next_view (rule : BitVec 32 → BitVec 32 → BitVec 32) (valid : Valid t) (apart : Apart t x) :
    view (t.next x offBits) = (executed t x).foldl (Sequential.step rule) (view t) := by
  unfold executed
  cases goes : t.core.enable x with
  | true => exact view_goes rule valid apart goes
  | false =>
    exact congrArg₂ Sequential.mk (writtenBack_held valid goes) (held_predReg goes)

theorem forwarding_in_order (offBits : Nat) (rule : BitVec 32 → BitVec 32 → BitVec 32) :
    InOrder rule ((unloaded offBits).restrict Apart) := by
  intro t inputs begun admitted
  have path : Reached ((unloaded offBits).restrict Apart) t := .start begun
  have replay := path.record_replay
    (fun t x reached admits => next_view rule (reached_valid reached).1 admits.2) inputs admitted
  have initial := start_view (show (Tracked.system offBits).start t from begun)
  rw [initial] at replay
  have valid := (reached_valid (path.run inputs admitted)).1
  rw [← replay]
  exact ⟨fun fetched k j => congrFun (congrFun (valid.operands fetched) k) j,fun _ => rfl⟩

instance (t : Tracked) (x : Cycle) : Decidable (NoLoad t x) := inferInstanceAs (Decidable (_ = _))
instance (offBits : Nat) (t : Tracked) (x : Cycle) : Decidable ((unloaded offBits).admits t x) :=
  inferInstanceAs (Decidable (_ ∧ NoLoad t x))
instance (rd : Fin 2 → Result) : Decidable (Separate rd) := inferInstanceAs (Decidable (¬_))
instance (t : Tracked) (x : Cycle) : Decidable (Apart t x) := inferInstanceAs (Decidable (Separate _))

-- An immediate in each pipeline, then a bundle that reads the second.
def pair (rd : BitVec 5) : List Cycle :=
  [fetches (addi 1 0 1 ||| 0x80000000) (addi rd 0 2),fetches (addi 2 rd 0) 0,fetches 0 0]

theorem forwarding_in_order_pair :
    ((unloaded 12).restrict Apart).Admits .begin (pair 3) ∧
    (((unloaded 12).restrict Apart).record executed .begin (pair 3)).length = 3 ∧
    Agrees (((unloaded 12).restrict Apart).run .begin (pair 3))
      ((((unloaded 12).restrict Apart).record executed .begin (pair 3)).foldl (Sequential.step fun first _ => first)
        ⟨Tracked.begin.core.rf.rf,Tracked.begin.core.execute.predReg⟩) := by
  have admitted : ((unloaded 12).restrict Apart).Admits .begin (pair 3) := by decide +kernel
  exact ⟨admitted,by decide +kernel,
    forwarding_in_order 12 (fun first _ => first) .begin (pair 3) (Tracked.begin_starts 12) admitted⟩

-- The next bundle is given the second value, the register file the first.
theorem double_write_differs : ¬∃ rule, InOrder rule (unloaded 12) := by
  rintro ⟨rule,inOrder⟩
  obtain ⟨operands,registers⟩ := inOrder .begin (pair 1) (Tracked.begin_starts 12) (by decide +kernel)
  have used := operands (by decide +kernel) 0 0
  have kept := registers 1
  have source : ∀ regs, operand regs ((unloaded 12).run .begin (pair 1)).core.execute.exReg 0 0 = regs 1 := by
    intro regs
    exact congrArg regs (by decide +kernel)
  rw [source,← kept] at used
  exact absurd used (by decide)

-- Neither what executes nor what has been executed is to be written to R0.
structure Spares (s : Pipeline) : Prop where
  stored : ∀ k, (s.memory.memReg.rd k).writes 0 = false
  issued : ∀ k, predOperand s.execute.predReg (s.execute.exReg.issue k).pred = true →
    (s.execute.exReg.issue k).wrRd = true → (s.execute.exReg.issue k).rdAddr ≠ 0

theorem exmem_spares (spares : Spares s) (x : Cycle) (k : Fin 2) : ((s.exmem x).rd k).writes 0 = false := by
  by_contra writes
  simp only [Pipeline.exmem,Execute.exmem,Execute.rd,Execute.doExecute,Result.writes,Bool.not_eq_false,Bool.and_eq_true,
    beq_iff_eq] at writes
  obtain ⟨zero,wrRd,_,arms⟩ := writes
  exact spares.issued k arms wrRd zero.symm

theorem next_spares (sane : s.Sane) (spares : Spares s) (x : Cycle) : Spares (s.next x offBits) := by
  cases goes : s.enable x with
  | false => exact ⟨held_memReg goes ▸ spares.stored,held_exReg goes ▸ held_predReg goes ▸ spares.issued⟩
  | true =>
    have dead := flushed_pred (next_predTrue s x sane offBits)
    constructor <;> intro k
    · rw [next_memReg,if_pos goes]
      split
      · exact Bool.and_false _
      · exact exmem_spares spares x k
    · rw [next_exReg,if_pos goes]
      split
      · match k with
        | 0 | 1 => exact fun arms => absurd (arms.symm.trans dead) (by decide)
      · exact fun _ => decex_sparing s k

theorem reached_spares (path : Reached (Pipeline.system offBits) s) : Spares s := by
  induction path with
  | start reset =>
    refine ⟨fun _ => reset.memReg ▸ Bool.and_false _,fun k arms => ?_⟩
    rw [reset.flushed k,flushed_pred reset.predTrue] at arms
    cases arms
  | step path _ ih => exact next_spares (Pipeline.reached_sane _ path) ih _

theorem zero_unwritten (path : Reached (Pipeline.system offBits) s) (x : Cycle) : (s.next x offBits).rf.rf 0 = s.rf.rf 0 := by
  have skips : ∀ k, (s.memory.rd x.dout k).writes 0 = false := by
    intro k
    have stored := (reached_spares path).stored k
    unfold Memory.rd
    split
    next first => exact first.1 ▸ stored
    next => exact stored
  show write s.rf.rf (s.memory.rd x.dout) 0 = _
  rw [write,skips,skips]
  rfl

theorem zero_unwritten_pair :
    (((Pipeline.system 12).run .begin (pair 0)).next (fetches 0 0) 12).rf.rf 0 = ((Pipeline.system 12).run .begin (pair 0)).rf.rf 0 :=
  zero_unwritten ((Reached.start Pipeline.begin_reset).run (pair 0) (by decide +kernel)) _
end Patmos.Core.OperandForwarding
