import Patmos.PipelineSignals
namespace Patmos.Core
open DecEx

inductive Opcode where
  | alui
  | alu
  | spc
  | ldt
  | stt
  | stc
  | cop
  | callnd
  | call
  | brnd
  | br
  | brcfnd
  | brcf
  | trap
  | cflrnd
  | cflr
  | alul
  | unused
  deriving DecidableEq, Repr

inductive Opc where
  | alur
  | aluu
  | alum
  | aluc
  | alup
  | alub
  | aluci
  | unused
  deriving DecidableEq, Repr

section
variable (inLocal : Bool) (instr : BitVec 32)

def opcode : Opcode :=
  match (instr.extractLsb' 22 5).toNat with
  | 0 | 1 | 2 | 3 | 4 | 5 | 6 | 7 => .alui
  | 0b01000 => .alu
  | 0b01001 => .spc
  | 0b01010 => .ldt
  | 0b01011 => .stt
  | 0b01100 => .stc
  | 0b01101 => .cop
  | 0b10000 => .callnd
  | 0b10001 => .call
  | 0b10010 => .brnd
  | 0b10011 => .br
  | 0b10100 => .brcfnd
  | 0b10101 => .brcf
  | 0b10110 => .trap
  | 0b11000 => .cflrnd
  | 0b11001 => .cflr
  | 0b11111 => .alul
  | _ => .unused

def opc : Opc :=
  match (instr.extractLsb' 4 3).toNat with
  | 0b000 => .alur
  | 0b001 => .aluu
  | 0b010 => .alum
  | 0b011 => .aluc
  | 0b100 => .alup
  | 0b101 => .alub
  | 0b110 => .aluci
  | _ => .unused

-- A long immediate takes the second word, so it is not a bundle of two.
def dual (instrA : BitVec 32) : Bool := instrA.getLsbD 31 && opcode instrA != .alul

def rsAddr (j : Fin 2) : BitVec 5 := if j = 0 then instr.extractLsb' 12 5 else instr.extractLsb' 7 5

def fields (rsData : Fin 2 → BitVec 32) : Issue where
  pred := instr.extractLsb' 27 4
  aluOp := {func := instr.extractLsb' 0 4}
  predOp := {
    func := instr.extractLsb' 3 1 ++ instr.extractLsb' 0 1
    dest := instr.extractLsb' 17 3
    s1Addr := instr.extractLsb' 12 4
    s2Addr := instr.extractLsb' 7 4 }
  rsAddr := rsAddr instr
  rsData := rsData
  rdAddr := instr.extractLsb' 17 5
  immVal := (instr.extractLsb' 0 12).setWidth 32

def decodeIssue (isValid : Bool) (instr : BitVec 32) (rsData : Fin 2 → BitVec 32) : Issue :=
  let d := fields instr rsData
  match opcode instr with
  | .alui => {d with aluOp.func := (instr.extractLsb' 22 3).setWidth 4,immOp := isValid,wrRd := isValid}
  | .alu =>
    match opc instr with
    | .alur | .aluu => {d with wrRd := isValid}
    | .alum => {d with aluOp.isMul := isValid}
    | .aluc => {d with aluOp.isCmp := isValid}
    | .aluci => {d with aluOp.isCmp := isValid,immOp := isValid,immVal := (instr.extractLsb' 7 5).setWidth 32}
    | .alup => {d with aluOp.isPred := isValid}
    | .alub =>
      {d with wrRd := isValid,aluOp.isBCpy := isValid,immOp := isValid,immVal := (instr.extractLsb' 7 5).setWidth 32}
    | .unused => d
  | .spc =>
    match opc instr with
    | .alum => {d with aluOp.isMTS := isValid}
    | .aluc => {d with aluOp.isMFS := isValid,wrRd := isValid}
    | _ => d
  | _ => d

def decodedIssue : Bool :=
  match opcode instr with
  | .alui => true
  | .alu => opc instr != .unused
  | .spc => opc instr == .alum || opc instr == .aluc
  | _ => false

def stackOp : Option (StackCacheOp × Bool) :=
  match (instr.extractLsb' 18 4).toNat with
  | 0b0000 => some (.res,true)
  | 0b0100 => some (.ens,true)
  | 0b0101 => some (.ens,false)
  | 0b1000 => some (.free,true)
  | 0b1100 => some (.spill,true)
  | 0b1101 => some (.spill,false)
  | _ => none

def memType (bits : BitVec 2) : MemType :=
  match bits.toNat with
  | 0 => .stack
  | 1 => .localMem
  | 2 => .cache
  | _ => .global

-- In local mode the data cache is replaced by the local memory.
def accessType (bits : BitVec 2) : MemType := if memType bits = .cache ∧ inLocal then .localMem else memType bits

def loadOp : MemOp :=
  let size := (instr.extractLsb' 9 3).toNat
  { load := true
    hword := size == 1 || size == 3
    byte := size == 2 || size == 4
    zext := size == 3 || size == 4
    typ := accessType inLocal (instr.extractLsb' 7 2) }

def storeOp : MemOp :=
  let size := (instr.extractLsb' 19 3).toNat
  { store := true
    hword := size == 1
    byte := size == 2
    typ := accessType inLocal (instr.extractLsb' 17 2) }

def addrImm (size : Nat) (instr : BitVec 32) : BitVec 32 :=
  (instr.extractLsb' 0 7).setWidth 32 <<< (if size = 0 then 2 else if size = 1 ∨ size = 3 then 1 else 0)

def storeImm (size : Nat) (instr : BitVec 32) : BitVec 32 :=
  (instr.extractLsb' 0 7).setWidth 32 <<< (if size = 0 then 2 else if size = 1 then 1 else 0)

def copOp : CopOp × Bool :=
  let copId := instr.extractLsb' 4 3
  if instr.getLsbD 0 = false then
    ({isCop := true,isCustom := true,copId,funcId := (instr.extractLsb' 1 3).setWidth 5},true)
  else if instr.getLsbD 1 then
    ({isCop := true,rsAddrCop := (instr.getLsbD 3,false),copId,funcId := instr.extractLsb' 7 5},true)
  else ({isCop := true,rsAddrCop := (instr.getLsbD 3,instr.getLsbD 2),copId,funcId := instr.extractLsb' 17 5},false)

-- The operations of the first pipeline only, with whether there is one.
def decodeFirst (instrA instrB : BitVec 32) (d : DecEx) : DecEx × Bool :=
  match opcode instrA with
  | .alul =>
    if instrA.extractLsb' 4 3 = 0 then ({d with a := {d.a with immOp := true,wrRd := true,immVal := instrB}},true)
    else (d,false)
  | .stc =>
    match stackOp instrA with
    | some (op,imm) =>
      ({d with stackOp := op
               a := {d.a with immOp := imm,immVal := (instrA.extractLsb' 0 18).setWidth 32 <<< 2}},true)
    | none => (d,false)
  | .trap => ({d with trap := true,xsrc := instrA.extractLsb' 0 5},true)
  | .call => ({d with a := {d.a with immOp := true},call := true},true)
  | .callnd => ({d with a := {d.a with immOp := true},call := true,nonDelayed := true},true)
  | .br => ({d with a := {d.a with immOp := true},jmpOp := {d.jmpOp with branch := true}},true)
  | .brnd => ({d with a := {d.a with immOp := true},jmpOp := {d.jmpOp with branch := true},nonDelayed := true},true)
  | .brcf => ({d with a := {d.a with immOp := true},brcf := true},true)
  | .brcfnd => ({d with a := {d.a with immOp := true},brcf := true,nonDelayed := true},true)
  | .cflr | .cflrnd =>
    let d := {d with nonDelayed := opcode instrA == .cflrnd}
    match (instrA.extractLsb' 0 4).toNat with
    | 0b0000 => ({d with ret := true},true)
    | 0b0001 => ({d with xret := true},true)
    | 0b0100 => ({d with call := true},true)
    | 0b0101 => ({d with jmpOp := {d.jmpOp with branch := true}},true)
    | 0b1010 => ({d with brcf := true},true)
    | _ => (d,false)
  | .ldt =>
    ({d with memOp := loadOp inLocal instrA
             a := {d.a with wrRd := true,immVal := addrImm (instrA.extractLsb' 9 3).toNat instrA}},true)
  | .stt =>
    ({d with memOp := storeOp inLocal instrA
             a := {d.a with immVal := storeImm (instrA.extractLsb' 19 3).toNat instrA}},true)
  | .cop => ({d with copOp := (copOp instrA).1,a := {d.a with wrRd := (copOp instrA).2}},true)
  | .alui | .alu | .spc | .unused => (d,decodedIssue instrA)

def Issue.sparing (d : Issue) : Issue := {d with wrRd := d.wrRd && d.rdAddr != 0}

def decodeBoth (dec : FeDec) (rsData : Fin 2 → Fin 2 → BitVec 32) : DecEx where
  pc := dec.pc
  base := dec.base
  relPc := dec.relPc
  a := decodeIssue true dec.instrA (rsData 0)
  b := decodeIssue (dual dec.instrA) dec.instrB (rsData 1)
  jmpOp := {target := dec.pc+(dec.instrA.extractLsb' 0 22).signExtend 30,reloc := dec.reloc}
  callAddr := (dec.instrA.extractLsb' 0 22).setWidth 32 <<< 2

def decode (dec : FeDec) (rsData : Fin 2 → Fin 2 → BitVec 32) : DecEx :=
  let first := decodeFirst inLocal dec.instrA dec.instrB (decodeBoth dec rsData)
  let d := first.1
  {d with a := d.a.sparing,b := d.b.sparing
          illOp := !(first.2 && (!dual dec.instrA || decodedIssue dec.instrB))}
end

def exceptionCall (exc : ExcDec) (dec : FeDec) : DecEx where
  a := {pred := 0,immOp := true}
  xcall := true
  xsrc := exc.src
  callAddr := exc.addr
  base := if exc.exc then exc.excBase else dec.base
  relPc := if exc.exc then exc.excAddr else dec.relPc

-- What a bundle can do besides computing, and the multiplication.
def DecEx.flags (d : DecEx) : List Bool :=
  [d.a.aluOp.isMul,d.copOp.isCop,d.call,d.ret,d.brcf,d.trap,d.xcall,d.xret,d.jmpOp.branch,d.memOp.load,d.memOp.store]

def DecEx.Single (d : DecEx) : Prop := d.flags.count true ≤ 1

section
variable {d : DecEx} (single : d.Single)
include single

theorem DecEx.single_branch (branch : d.jmpOp.branch = true) : d.callRet = false := by
  simp only [DecEx.Single,flags,List.count_cons] at single
  simp only [callRet,Bool.or_eq_false_iff]
  refine ⟨⟨⟨⟨?_,?_⟩,?_⟩,?_⟩,?_⟩
  all_goals
    apply Bool.eq_false_of_not_eq_true
    intro set
    grind

theorem DecEx.single_xret (xret : d.xret = true) : d.call = false ∧ d.xcall = false ∧ d.brcf = false := by
  simp only [DecEx.Single,flags] at single
  refine ⟨?_,?_,?_⟩
  all_goals
    apply Bool.eq_false_of_not_eq_true
    intro set
    grind

theorem DecEx.single_ret (ret : d.ret = true) : d.call = false ∧ d.xcall = false ∧ d.brcf = false ∧ d.xret = false := by
  simp only [DecEx.Single,flags] at single
  refine ⟨?_,?_,?_,?_⟩
  all_goals
    apply Bool.eq_false_of_not_eq_true
    intro set
    grind

theorem DecEx.single_call (call : d.call = true) : d.xcall = false ∧ d.jmpOp.branch = false := by
  simp only [DecEx.Single,flags,List.count_cons] at single
  refine ⟨?_,?_⟩
  all_goals
    apply Bool.eq_false_of_not_eq_true
    intro set
    grind
end

theorem decodeIssue_mul (instr : BitVec 32) (other : opcode instr ≠ .alu) :
    (decodeIssue isValid instr rsData).aluOp.isMul = false := by
  unfold decodeIssue
  cases code : opcode instr with
  | alu => exact absurd code other
  | spc => cases opc instr <;> rfl
  | _ => rfl

section
variable (inLocal : Bool) (dec : FeDec) (data : Fin 2 → Fin 2 → BitVec 32) (k : Fin 2)

theorem decodeFirst_single (instrA instrB : BitVec 32) (d : DecEx)
    (plain : d.flags.tail = List.replicate 10 false) (quiet : opcode instrA ≠ .alu → d.a.aluOp.isMul = false) :
    (decodeFirst inLocal instrA instrB d).1.Single := by
  simp only [flags,List.tail_cons,List.replicate_succ,List.replicate_zero,List.cons.injEq] at plain
  unfold decodeFirst
  cases code : opcode instrA with
  | alu =>
    cases mul : d.a.aluOp.isMul <;> simp [DecEx.Single,flags, *]
  | alul =>
    by_cases long : instrA.extractLsb' 4 3 = 0#3 <;> simp [DecEx.Single,flags, *]
  | stc =>
    cases stackOp instrA <;> simp [DecEx.Single,flags, *]
  | cflr | cflrnd =>
    dsimp only
    split <;> simp [DecEx.Single,flags, *]
  | cop =>
    have isCop : (copOp instrA).1.isCop = true := by unfold copOp; split <;> (try split) <;> rfl
    simp [DecEx.Single,flags, *]
  | _ =>
    simp [DecEx.Single,flags,loadOp,storeOp, *]

theorem decode_single (rsData : Fin 2 → Fin 2 → BitVec 32) : (decode inLocal dec rsData).Single :=
  decodeFirst_single inLocal dec.instrA dec.instrB _ rfl (decodeIssue_mul dec.instrA)

theorem decodeIssue_rs (isValid : Bool) (instr : BitVec 32) (rsData : Fin 2 → BitVec 32) :
    (decodeIssue isValid instr rsData).rsAddr = rsAddr instr ∧ (decodeIssue isValid instr rsData).rsData = rsData := by
  unfold decodeIssue
  cases opcode instr with
  | alu | spc => cases opc instr <;> exact ⟨rfl,rfl⟩
  | _ => exact ⟨rfl,rfl⟩

-- The further decoding of the first pipeline leaves its operands and the second pipeline alone.
theorem decodeFirst_rs (inLocal : Bool) (instrA instrB : BitVec 32) (d : DecEx) :
    let first := (decodeFirst inLocal instrA instrB d).1
    first.a.rsAddr = d.a.rsAddr ∧ first.a.rsData = d.a.rsData ∧ first.b = d.b := by
  unfold decodeFirst
  cases opcode instrA with
  | alul | stc | cflr | cflrnd => dsimp only; split <;> exact ⟨rfl,rfl,rfl⟩
  | _ => exact ⟨rfl,rfl,rfl⟩

def FeDec.instr : BitVec 32 := if k = 0 then dec.instrA else dec.instrB

theorem decode_rs (k j : Fin 2) : ((decode inLocal dec data).issue k).rsAddr j = rsAddr (dec.instr k) j ∧
    ((decode inLocal dec data).issue k).rsData j = data k j := by
  obtain ⟨addr,values,second⟩ := decodeFirst_rs inLocal dec.instrA dec.instrB (decodeBoth dec data)
  match k with
  | 0 =>
    obtain ⟨read,found⟩ := decodeIssue_rs true dec.instrA (data 0)
    exact ⟨congrFun (addr.trans read) j,congrFun (values.trans found) j⟩
  | 1 =>
    obtain ⟨read,found⟩ := decodeIssue_rs (dual dec.instrA) dec.instrB (data 1)
    exact ⟨congrFun ((congrArg Issue.rsAddr second).trans read) j,congrFun ((congrArg Issue.rsData second).trans found) j⟩

theorem decodeFirst_address (inLocal : Bool) (instrA instrB : BitVec 32) (d : DecEx) :
    let first := (decodeFirst inLocal instrA instrB d).1
    first.pc = d.pc ∧ first.base = d.base ∧ first.relPc = d.relPc ∧ first.jmpOp.reloc = d.jmpOp.reloc := by
  unfold decodeFirst
  cases opcode instrA with
  | alul | stc | cflr | cflrnd => dsimp only; split <;> exact ⟨rfl,rfl,rfl,rfl⟩
  | _ => exact ⟨rfl,rfl,rfl,rfl⟩

theorem decode_address (inLocal : Bool) (dec : FeDec) (data : Fin 2 → Fin 2 → BitVec 32) :
    let d := decode inLocal dec data
    d.pc = dec.pc ∧ d.base = dec.base ∧ d.relPc = dec.relPc ∧ d.jmpOp.reloc = dec.reloc :=
  decodeFirst_address inLocal dec.instrA dec.instrB (decodeBoth dec data)

theorem decode_sparing (writes : ((decode inLocal dec data).issue k).wrRd = true) : ((decode inLocal dec data).issue k).rdAddr ≠ 0 := by
  have spared : ∀ d : Issue, d.sparing.wrRd = true → d.sparing.rdAddr ≠ 0 := by
    intro d wrRd
    simp only [Issue.sparing,Bool.and_eq_true,bne_iff_ne] at wrRd
    exact wrRd.2
  match k with
  | 0 | 1 => exact spared _ writes
end

theorem exceptionCall_single (exc : ExcDec) (dec : FeDec) : (exceptionCall exc dec).Single := by
  simp [DecEx.Single,flags,exceptionCall]

structure Decode where
  decReg : FeDec
  inDelaySlot : BitVec 2

namespace Decode
section
variable (s : Decode) (exc : ExcDec) (rsData : Fin 2 → Fin 2 → BitVec 32)

-- An interrupt waits for the end of the delay slots, an exception does not.
def injects : Bool := exc.exc || exc.intr && s.inDelaySlot == 0

def decex : DecEx := if s.injects exc then exceptionCall exc s.decReg else decode exc.inLocal s.decReg rsData

theorem decex_single : (s.decex exc rsData).Single := by
  unfold decex
  split
  · exact exceptionCall_single exc s.decReg
  · exact decode_single exc.inLocal s.decReg rsData

def delaySlotNext (flush : Bool) (d : DecEx) : BitVec 2 :=
  if flush then 1
  else if d.callRet then 3
  else if d.jmpOp.branch then 2
  else if d.a.aluOp.isMul then if 1 < s.inDelaySlot then s.inDelaySlot-1 else 1
  else if s.inDelaySlot ≠ 0 then s.inDelaySlot-1 else 0

def next (ena flush : Bool) (fedec : FeDec) (d : DecEx) : Decode :=
  if ena then ⟨if flush then fedec.flush else fedec,s.delaySlotNext flush d⟩ else s
end
end Decode
end Patmos.Core
