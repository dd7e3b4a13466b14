import Patmos.Pipeline
namespace Patmos.Core.Multiplication
open Transition Pipeline

inductive Write where
  | product (value : BitVec 64)
  | lo (value : BitVec 32)
  | hi (value : BitVec 32)
  deriving DecidableEq, Repr

structure Pair where
  hi : BitVec 32
  lo : BitVec 32

def Pair.apply (p : Pair) : Write → Pair
  | .product value => ⟨value.extractLsb' 32 32,value.extractLsb' 0 32⟩
  | .lo value => {p with lo := value}
  | .hi value => {p with hi := value}

def registers (s : Pipeline) : Pair := ⟨s.execute.mulHiReg,s.execute.mulLoReg⟩

def moved (s : Pipeline) (k : Fin 2) : List Write :=
  if s.execute.writesSpecial s.flush k .sl then [.lo (s.execute.op k 0)]
  else if s.execute.writesSpecial s.flush k .sh then [.hi (s.execute.op k 0)] else []

def inside (s : Pipeline) : List Write := if s.execute.mulPipeReg then [.product s.execute.mulReg.mulResult] else []

def written (s : Pipeline) (x : Cycle) : List Write := if s.enable x then inside s ++ (moved s 0 ++ moved s 1) else []

-- What the bundle that leaves the execute stage is to write, with the product of the operands as numbers.
def issued (s : Pipeline) (x : Cycle) : List Write :=
  if s.enable x then
    (moved s 0 ++ moved s 1) ++
    if s.execute.mulRuns s.flush then [.product (product s.execute.mulSigned (s.execute.op 0 0) (s.execute.op 0 1))] else []
  else []

def Lossless (m : System Pipeline Cycle) : Prop :=
  ∀ s inputs, m.start s → m.Admits s inputs →
    m.record written s inputs ++ inside (m.run s inputs) = m.record issued s inputs ∧
    registers (m.run s inputs) = (m.record written s inputs).foldl Pair.apply (registers s)

-- No coprocessor holds the stage while a product is on its way.
def Unhurried (s : Pipeline) (x : Cycle) : Prop :=
  s.execute.mulPipeReg = true → enaIn x = true → s.enableCop x = true

section
variable {s : Pipeline} {x : Cycle} {offBits : Nat}

theorem cop_no_mul (sane : s.Sane) (cop : s.execute.runsCop s.flush = true) : s.execute.mulRuns s.flush = false := by
  simp only [Execute.runsCop,Bool.and_eq_true] at cop
  have single := sane.single (s.doExecute_armed cop.1)
  have isCop := cop.2
  unfold Execute.mulRuns
  cases mul : s.execute.exReg.a.aluOp.isMul with
  | false => rfl
  | true => simp [DecEx.Single,DecEx.flags,mul,isCop] at single

theorem stalled_cop (held : s.enable x = false) (enaIn : enaIn x = true) : s.execute.runsCop s.flush = true := by
  simp only [enable,enaIn,Bool.true_and,enableCop,Execute.enableCop,Bool.or_eq_false_iff] at held
  simpa using held.1

theorem next_mulPipeReg (s : Pipeline) (x : Cycle) (offBits : Nat) :
    (s.next x offBits).execute.mulPipeReg = if enaIn x then s.execute.mulRuns s.flush else s.execute.mulPipeReg := rfl

theorem next_mulReg (s : Pipeline) (x : Cycle) (offBits : Nat) :
    (s.next x offBits).execute.mulReg =
      if enaIn x then .of s.execute.mulSigned (s.execute.op 0 0) (s.execute.op 0 1) else s.execute.mulReg := rfl

theorem inside_held (sane : s.Sane) (unhurried : Unhurried s x) (held : s.enable x = false) :
    inside (s.next x offBits) = inside s := by
  unfold inside
  rw [next_mulPipeReg,next_mulReg]
  by_cases enaIn : enaIn x = true
  · -- Only a coprocessor can hold the stage, and then no product is on its way.
    have cop := stalled_cop held enaIn
    have empty : s.execute.mulPipeReg = false := by
      cases waits : s.execute.mulPipeReg with
      | false => rfl
      | true =>
        have runs := unhurried waits enaIn
        simp [enable,enaIn,runs] at held
    simp [cop_no_mul sane cop,empty]
  · simp [enaIn]

theorem inside_goes (goes : s.enable x = true) :
    inside (s.next x offBits) =
      if s.execute.mulRuns s.flush then [.product (product s.execute.mulSigned (s.execute.op 0 0) (s.execute.op 0 1))] else [] := by
  have enaIn : enaIn x = true := by
    simp only [enable,Bool.and_eq_true] at goes
    exact goes.1
  unfold inside
  rw [next_mulPipeReg,next_mulReg,if_pos enaIn,if_pos enaIn,Partial.of_product]

theorem written_flow (sane : s.Sane) (unhurried : Unhurried s x) :
    written s x ++ inside (s.next x offBits) = inside s ++ issued s x := by
  unfold written issued
  by_cases goes : s.enable x = true
  · rw [if_pos goes,if_pos goes,inside_goes goes,List.append_assoc]
  · rw [if_neg goes,if_neg goes,inside_held sane unhurried (by simpa using goes),List.nil_append,List.append_nil]

theorem writes_one (sl : s.execute.writesSpecial s.flush k .sl = true) : s.execute.writesSpecial s.flush k .sh = false := by
  simp only [Execute.writesSpecial,Bool.and_eq_true,beq_iff_eq] at sl ⊢
  simp [sl.2]

theorem registers_next (s : Pipeline) (x : Cycle) (offBits : Nat) :
    registers (s.next x offBits) =
      if s.enable x then ⟨s.execute.mulHiNext s.flush,s.execute.mulLoNext s.flush⟩ else registers s := by
  by_cases goes : s.enable x = true
  · rw [if_pos goes]
    exact congrArg₂ Pair.mk (if_pos goes) (if_pos goes)
  · rw [if_neg goes]
    exact congrArg₂ Pair.mk (if_neg goes) (if_neg goes)

theorem moved_apply (s : Pipeline) (k : Fin 2) (p : Pair) :
    (moved s k).foldl Pair.apply p =
      ⟨if s.execute.writesSpecial s.flush k .sh then s.execute.op k 0 else p.hi,
       if s.execute.writesSpecial s.flush k .sl then s.execute.op k 0 else p.lo⟩ := by
  unfold moved
  cases sl : s.execute.writesSpecial s.flush k .sl with
  | true => simp [writes_one sl,Pair.apply]
  | false => cases s.execute.writesSpecial s.flush k .sh <;> simp [Pair.apply]

theorem inside_apply (s : Pipeline) (p : Pair) :
    (inside s).foldl Pair.apply p =
      if s.execute.mulPipeReg then
        ⟨s.execute.mulReg.mulResult.extractLsb' 32 32,s.execute.mulReg.mulResult.extractLsb' 0 32⟩
      else p := by
  unfold inside
  split <;> rfl

theorem registers_written (s : Pipeline) (x : Cycle) (offBits : Nat) :
    registers (s.next x offBits) = (written s x).foldl Pair.apply (registers s) := by
  rw [registers_next]
  unfold written
  split
  · -- The second pipeline is connected last and the multiplier first.
    rw [List.foldl_append,List.foldl_append,inside_apply,moved_apply,moved_apply]
    unfold Execute.mulHiNext Execute.mulLoNext Execute.mts registers
    congr 1
    · split
      · rfl
      · split
        · rfl
        · split <;> rfl
    · split
      · rfl
      · split
        · rfl
        · split <;> rfl
  · rfl
end

theorem inside_stalled (stalls : List Cycle) (stalled : ∀ w ∈ stalls,enaIn w = false) (s : Pipeline) :
    inside ((system offBits).run s stalls) = inside s := by
  induction stalls generalizing s with
  | nil => rfl
  | cons w stalls ih =>
    rw [System.run,ih (fun v member => stalled v (by simp [member]))]
    have low := stalled w (by simp)
    change inside (s.next w offBits) = inside s
    unfold inside
    rw [next_mulPipeReg,next_mulReg,low]
    rfl

-- The product stands in sh and sl when the moves of the next bundle are made.
theorem multiplication_sets_product (offBits : Nat) (s : Pipeline) (x y : Cycle) (stalls : List Cycle)
    (runs : s.execute.mulRuns s.flush = true) (goes : s.enable x = true) (stalled : ∀ w ∈ stalls,enaIn w = false)
    (ends : ((system offBits).run (s.next x offBits) stalls).enable y = true) :
    let held := (system offBits).run (s.next x offBits) stalls
    ∃ p : Pair,
      p.hi ++ p.lo = BitVec.ofInt 64 (if s.execute.mulSigned then (s.execute.op 0 0).toInt*(s.execute.op 0 1).toInt
        else (s.execute.op 0 0).toNat*(s.execute.op 0 1).toNat) ∧
      registers (held.next y offBits) = (moved held 0 ++ moved held 1).foldl Pair.apply p := by
  intro held
  have carries : inside held = [.product (product s.execute.mulSigned (s.execute.op 0 0) (s.execute.op 0 1))] := by
    rw [inside_stalled stalls stalled,inside_goes goes,if_pos runs]
  refine ⟨(registers held).apply (.product (product s.execute.mulSigned (s.execute.op 0 0) (s.execute.op 0 1))),?_,?_⟩
  · have whole (value : BitVec 64) : value.extractLsb' 32 32 ++ value.extractLsb' 0 32 = value := by
      rw [BitVec.extractLsb'_append_extractLsb'_eq_extractLsb' (by omega),BitVec.extractLsb'_eq_self]
    rw [Pair.apply,whole,product]
    unfold operandValue
    split <;> rfl
  · rw [registers_written,written,if_pos ends,carries]
    rfl

theorem multiplications_kept (offBits : Nat) : Lossless ((system offBits).restrict Unhurried) := by
  intro s inputs begun admitted
  have path : Reached ((system offBits).restrict Unhurried) s := .start begun
  constructor
  · have flow := path.record_flow
      (fun s x reached admits => written_flow (reached_sane s reached.relax) admits.2) inputs admitted
    rw [flow]
    have empty : inside s = [] := by simp [inside,(show s.Reset from begun).noMul]
    rw [empty,List.nil_append]
  · exact path.record_replay (fun s x _ _ => registers_written s x offBits) inputs admitted

def multiply (rs1 rs2 : BitVec 5) : BitVec 32 := 0b0000001000#10 ++ 0#5 ++ rs1 ++ rs2 ++ 0b0100000#7
def custom : BitVec 32 := 0b0000001101#10 ++ 0#22

def squares (last : BitVec 32) : List Cycle :=
  [fetches (addi 1 0 3) 0,fetches (multiply 1 1) 0,fetches last 0,fetches 0 0]

instance (s : Pipeline) (x : Cycle) : Decidable (Unhurried s x) := inferInstanceAs (Decidable (_ → _ → _))

def calm : List Cycle := squares 0 ++ [fetches 0 0,fetches 0 0]

theorem multiplications_kept_square :
    ((system 12).restrict Unhurried).Admits begin calm ∧
    ((system 12).restrict Unhurried).record written begin calm = [.product 9] := by
  have admitted : ((system 12).restrict Unhurried).Admits begin calm := by decide +kernel
  refine ⟨admitted,?_⟩
  have flow := (multiplications_kept 12 begin calm begin_reset admitted).1
  have none : inside (((system 12).restrict Unhurried).run begin calm) = [] := by decide +kernel
  rw [none,List.append_nil] at flow
  rw [flow]
  decide +kernel

theorem multiplication_sets_product_square :
    let s := (system 12).run begin ((squares 0).take 3)
    ∃ p : Pair,p.hi ++ p.lo = 9#64 ∧
      registers ((s.next (fetches 0 0) 12).next (fetches 0 0) 12) =
        (moved (s.next (fetches 0 0) 12) 0 ++ moved (s.next (fetches 0 0) 12) 1).foldl Pair.apply p := by
  intro s
  obtain ⟨p,value,written⟩ := multiplication_sets_product 12 s (fetches 0 0) (fetches 0 0) []
    (by decide +kernel) (by decide +kernel) (by simp) (by decide +kernel)
  exact ⟨p,value.trans (by decide +kernel),written⟩

-- The coprocessor operation after the multiplication waits for one cycle.
def waits : Cycle := {fetches 0 0 with around := ⟨0,0,false,0⟩}
def hurried : List Cycle := squares custom ++ [waits,fetches 0 0,fetches 0 0]

theorem product_lost : ¬Lossless (system 12) := by
  intro lossless
  have flow := (lossless begin hurried begin_reset (by decide +kernel)).1
  exact absurd flow (by decide)
end Patmos.Core.Multiplication
