import Patmos.FetchAddress
namespace Patmos.Core.InterruptInjection
open Transition Pipeline

-- An interrupt takes the place of the bundle in the decode stage.
def takes (t : Tracked) (x : Cycle) : Bool :=
  t.core.enable x && !t.flushes && !t.core.exc.excReg && (t.core.exc.excdec.intr && t.core.decode.inDelaySlot == 0)

def Held (offBits : Nat) : Tracked → List Cycle → Prop
  | _,[] => True
  | t,x :: rest => t.core.enable x = false ∧ Held offBits (t.next x offBits) rest

def decodeAddress (t : Tracked) : BitVec 30 := t.core.decode.decReg.pc+t.core.decode.decReg.reloc.setWidth 30

def returns (t : Tracked) : Bool := t.core.execute.exReg.xret && t.core.execute.doExecute t.core.flush 0

-- The bundle in the decode stage is none of the three bundles after a call, return or brcf, none of the two after a
-- branch, and not right after a multiplication.
structure Uncommitted (t : Tracked) : Prop where
  first : t.core.doCallRet = false ∧ t.core.doBranch = false ∧ t.core.execute.mulRuns t.core.flush = false
  second : (t.gone 0).callRet = false ∧ (t.gone 0).branch = false
  third : (t.gone 1).callRet = false

-- When the exception call is executed the bundle's base and offset are saved, and what follows in the pipeline is
-- flushed. A return with them fetches the bundle again.
structure Precise (offBits : Nat) (t : Tracked) (x : Cycle) : Prop where
  uncommitted : Uncommitted t
  saved : ∀ held y, Held offBits (t.next x offBits) held →
    let u := (Tracked.system offBits).run (t.next x offBits) held
    u.core.enable y = true → u.core.flush = false →
      (u.core.next y offBits).execute.excBaseReg = t.core.decode.decReg.base ++ 0#2 ∧
      (u.core.next y offBits).execute.excOffReg = t.core.decode.decReg.relPc ++ 0#2 ∧
      (u.core.next y offBits).flush = true
  resumed : ∀ v y held z, Reached (Tracked.system offBits) v → (Tracked.system offBits).admits v y →
    returns v = true → v.core.enable y = true → v.core.execute.excBaseReg = t.core.decode.decReg.base ++ 0#2 →
    v.core.execute.excOffReg = t.core.decode.decReg.relPc ++ 0#2 → Tracked.Undisturbed offBits (v.next y offBits) held →
    ((Tracked.system offBits).run (v.next y offBits) held).core.enable z = true →
    Placed offBits t.core.decode.decReg.base → t.core.decode.decReg.relPc.toNat ≤ 2^offBits →
      (((Tracked.system offBits).run (v.next y offBits) held).next z offBits).fetchAddress = decodeAddress t

section Countdown
variable {d : Decode} {next : DecEx}

theorem delay_callRet (transfer : next.callRet = true) : d.delaySlotNext false next = 3 := by
  simp [Decode.delaySlotNext,transfer]

theorem delay_branch (branch : next.jmpOp.branch = true) : 2 ≤ (d.delaySlotNext false next).toNat := by
  unfold Decode.delaySlotNext
  rw [branch]
  generalize next.callRet = transfer
  cases transfer with
  | true => show 2 ≤ 3; decide
  | false => show 2 ≤ 2; decide

theorem delay_mul (mul : next.a.aluOp.isMul = true) : 1 ≤ (d.delaySlotNext false next).toNat := by
  unfold Decode.delaySlotNext
  rw [mul]
  generalize d.inDelaySlot = count
  generalize next.callRet = transfer
  generalize next.jmpOp.branch = branch
  revert count transfer branch
  decide

theorem delay_two (waits : 2 ≤ d.inDelaySlot.toNat) (flush : Bool) (next : DecEx) : 1 ≤ (d.delaySlotNext flush next).toNat := by
  unfold Decode.delaySlotNext
  revert waits
  generalize d.inDelaySlot = count
  generalize next.callRet = transfer
  generalize next.jmpOp.branch = branch
  generalize next.a.aluOp.isMul = mul
  revert count transfer branch mul flush
  decide

theorem delay_three (waits : d.inDelaySlot = 3) (next : DecEx) : 2 ≤ (d.delaySlotNext false next).toNat := by
  unfold Decode.delaySlotNext
  rw [waits]
  generalize next.callRet = transfer
  generalize next.jmpOp.branch = branch
  generalize next.a.aluOp.isMul = mul
  revert transfer branch mul
  decide
end Countdown

-- The countdown covers the delay slots of everything on its way.
structure Covered (t : Tracked) : Prop where
  transfer : t.core.armed = true → t.core.execute.exReg.callRet = true → t.core.decode.inDelaySlot = 3
  transferMem : (t.gone 0).callRet = true → 2 ≤ t.core.decode.inDelaySlot.toNat
  transferWb : (t.gone 1).callRet = true → 1 ≤ t.core.decode.inDelaySlot.toNat
  branch : t.core.armed = true → t.core.execute.exReg.jmpOp.branch = true → 2 ≤ t.core.decode.inDelaySlot.toNat
  branchMem : (t.gone 0).branch = true → 1 ≤ t.core.decode.inDelaySlot.toNat
  mul : t.core.armed = true → t.core.execute.exReg.a.aluOp.isMul = true → 1 ≤ t.core.decode.inDelaySlot.toNat

section Step
variable {t : Tracked} {x : Cycle} {offBits : Nat}

theorem covered_held (covered : Covered t) (held : t.core.enable x = false) : Covered (t.next x offBits) := by
  constructor
  all_goals simp only [Tracked.gone_held held,Tracked.next_core,held_exReg held,held_armed held,
    held_decode held]
  · exact covered.transfer
  · exact covered.transferMem
  · exact covered.transferWb
  · exact covered.branch
  · exact covered.branchMem
  · exact covered.mul

theorem covered_goes (covered : Covered t) (sane : t.core.Sane) (goes : t.core.enable x = true) : Covered (t.next x offBits) := by
  have delay : (t.next x offBits).core.decode.inDelaySlot = t.core.decode.delaySlotNext t.flushes t.core.decex := by
    simp [Tracked.next,next,Decode.next,goes,Tracked.flushes]
  have kept : (t.next x offBits).core.armed = true →
      t.flushes = false ∧ (t.next x offBits).core.execute.exReg = t.core.decex := next_armed t.core x sane goes
  constructor
  · intro arms transfer
    obtain ⟨keeps,entered⟩ := kept arms
    rw [entered] at transfer
    rw [delay,keeps]
    exact delay_callRet transfer
  · intro runs
    rw [Tracked.gone_zero goes] at runs
    have transfer := runs
    simp only [doCallRet,Execute.doCallRet,Bool.and_eq_true] at transfer
    rw [delay,show t.flushes = false from transfer_unflushed t.core sane runs]
    exact delay_three (covered.transfer (t.core.doExecute_armed transfer.2) transfer.1) t.core.decex
  · intro older
    rw [Tracked.gone_succ goes] at older
    rw [delay]
    exact delay_two (covered.transferMem older) _ _
  · intro arms branch
    obtain ⟨keeps,entered⟩ := kept arms
    rw [entered] at branch
    rw [delay,keeps]
    exact delay_branch branch
  · intro runs
    rw [Tracked.gone_zero goes] at runs
    simp only [doBranch,Execute.doBranch,Bool.and_eq_true] at runs
    rw [delay]
    exact delay_two (covered.branch (t.core.doExecute_armed runs.2) runs.1) _ _
  · intro arms mul
    obtain ⟨keeps,entered⟩ := kept arms
    rw [entered] at mul
    rw [delay,keeps]
    exact delay_mul mul
end Step

theorem start_dead {u : Pipeline} (reset : u.Reset) : u.armed = false := by
  unfold armed
  rw [show u.execute.exReg.a.pred = predIfFalse from reset.flushed 0]
  exact flushed_pred reset.predTrue

theorem start_covered (begun : (Tracked.system offBits).start t) : Covered t := by
  obtain ⟨reset,_,_,none⟩ := begun
  have dead := start_dead reset
  constructor
  all_goals simp [Tracked.gone,none,dead]

theorem reached_covered (path : Reached (Tracked.system offBits) t) : Covered t := by
  induction path with
  | start begun => exact start_covered begun
  | @step t x before _ ih =>
    cases goes : t.core.enable x with
    | true => exact covered_goes ih (Tracked.reached_sane before) goes
    | false => exact covered_held ih goes

theorem covered_uncommitted (covered : Covered t) (ready : t.core.decode.inDelaySlot = 0) : Uncommitted t := by
  have zero : t.core.decode.inDelaySlot.toNat = 0 := by rw [ready]; rfl
  constructor
  · refine ⟨?_,?_,?_⟩
    · cases runs : t.core.doCallRet with
      | false => rfl
      | true =>
        simp only [doCallRet,Execute.doCallRet,Bool.and_eq_true] at runs
        have waits := covered.transfer (t.core.doExecute_armed runs.2) runs.1
        exact absurd (ready.symm.trans waits) (by decide)
    · cases runs : t.core.doBranch with
      | false => rfl
      | true =>
        simp only [doBranch,Execute.doBranch,Bool.and_eq_true] at runs
        have waits := covered.branch (t.core.doExecute_armed runs.2) runs.1
        omega
    · cases runs : t.core.execute.mulRuns t.core.flush with
      | false => rfl
      | true =>
        simp only [Execute.mulRuns,Bool.and_eq_true] at runs
        have waits := covered.mul (t.core.doExecute_armed runs.2) runs.1
        omega
  · constructor
    · cases gone : (t.gone 0).callRet with
      | false => rfl
      | true => have waits := covered.transferMem gone; omega
    · cases gone : (t.gone 0).branch with
      | false => rfl
      | true => have waits := covered.branchMem gone; omega
  · cases gone : (t.gone 1).callRet with
    | false => rfl
    | true => have waits := covered.transferWb gone; omega

-- Interrupts stay disabled until the first bundle that is fetched with its own base has come to the decode stage.
structure Early (t : Tracked) : Prop where
  first : t.past.length = 0 → t.core.armed = false ∧ t.core.decode.decReg.instrA = 0
  disabled : t.past.length < 2 → t.core.exc.statusReg = 2 ∧ t.core.exc.masterReg.cmd ≠ .wr
  storeless : t.past.length < 2 → t.core.armed = true → t.core.execute.exReg.memOp.store = false
  calm : t.past.length < 2 → t.core.memory.memReg.mem.xcall = false ∧ t.core.memory.memReg.mem.xret = false

theorem start_early (begun : (Tracked.system offBits).start t) : Early t := by
  obtain ⟨reset,_,_,none⟩ := begun
  have dead := start_dead reset
  constructor
  · exact fun _ => ⟨dead,reset.decoded.1⟩
  · intro _
    refine ⟨reset.status,?_⟩
    rw [reset.command]
    decide
  · intro _ arms
    exact absurd (arms.symm.trans dead) (by decide)
  · intro _
    rw [← reset.memReg]
    exact ⟨rfl,rfl⟩

section Begin
variable {t : Tracked} {x : Cycle} {offBits : Nat}

theorem disabled_next (early : Early t) (admitted : (Tracked.system offBits).admits t x) (before : t.past.length < 2) :
    (t.core.next x offBits).exc.statusReg = 2 ∧ (t.core.next x offBits).exc.masterReg.cmd ≠ .wr := by
  obtain ⟨status,idle⟩ := early.disabled before
  obtain ⟨xcall,xret⟩ := early.calm before
  constructor
  · show t.core.exc.statusNext (t.core.enable x) t.core.memory.exc = 2
    have quiet : t.core.exc.writes 0 = false := by simp [Exceptions.writes,idle]
    unfold Exceptions.statusNext
    rw [quiet]
    simp [Memory.exc,xcall,xret,status]
  · intro writes
    have stores := admitted.1 writes
    simp only [Pipeline.stores,Pipeline.exmem,Execute.exmem,Bool.and_eq_true] at stores
    have armed := t.core.doExecute_armed stores.2.2
    exact absurd (stores.2.1.symm.trans (early.storeless before armed)) (by decide)

theorem decex_storeless (zero : t.core.decode.decReg.instrA = 0) : t.core.decex.memOp.store = false := by
  have code : opcode 0 = .alui := by decide
  unfold decex Decode.decex
  split
  · rfl
  · unfold decode decodeFirst decodeBoth
    rw [zero,code]

theorem early_next (early : Early t) (sane : t.core.Sane) (admitted : (Tracked.system offBits).admits t x) :
    Early (t.next x offBits) := by
  cases goes : t.core.enable x with
  | false =>
    have length : (t.next x offBits).past = t.past := by simp [Tracked.next,goes]
    constructor
    all_goals rw [length]
    · simp only [Tracked.next_core,held_armed goes,held_decode goes]
      exact early.first
    · exact disabled_next early admitted
    · simp only [Tracked.next_core,held_armed goes,held_exReg goes]
      exact early.storeless
    · simp only [Tracked.next_core,held_memReg goes]
      exact early.calm
  | true =>
    have length : (t.next x offBits).past.length = t.past.length+1 := by simp [Tracked.next,goes]
    constructor
    all_goals rw [length]
    · intro none
      cases none
    · intro before
      exact disabled_next early admitted (by omega)
    · intro before arms
      rw [show (t.next x offBits).core.execute.exReg = t.core.decex from (next_armed t.core x sane goes arms).2]
      exact decex_storeless (early.first (by omega)).2
    · intro before
      have dead := (early.first (by omega)).1
      have still : t.core.execute.doExecute t.core.flush 0 = false := by
        cases runs : t.core.execute.doExecute t.core.flush 0 with
        | false => rfl
        | true => exact absurd ((t.core.doExecute_armed runs).symm.trans dead) (by decide)
      show (t.core.next x offBits).memory.memReg.mem.xcall = false ∧ (t.core.next x offBits).memory.memReg.mem.xret = false
      rw [next_memReg,if_pos goes]
      split
      · exact ⟨rfl,rfl⟩
      · simp [exmem,Execute.exmem,still]
end Begin

theorem reached_early (path : Reached (Tracked.system offBits) t) : Early t := by
  induction path with
  | start begun => exact start_early begun
  | step before admitted ih => exact early_next ih (Tracked.reached_sane before) admitted

section Taken
variable {t : Tracked} {x : Cycle} {offBits : Nat}

structure Taken (t : Tracked) (x : Cycle) : Prop where
  goes : t.core.enable x = true
  kept : t.flushes = false
  noExc : t.core.exc.excReg = false
  intr : t.core.exc.excdec.intr = true
  ready : t.core.decode.inDelaySlot = 0

theorem takes_taken (taken : takes t x = true) : Taken t x := by
  simp only [takes,Bool.and_eq_true,Bool.not_eq_true',beq_iff_eq] at taken
  exact ⟨taken.1.1.1,taken.1.1.2,taken.1.2,taken.2.1,taken.2.2⟩

theorem taken_late (early : Early t) (taken : Taken t x) : 2 ≤ t.past.length := by
  by_contra before
  have status := (early.disabled (by omega)).1
  have intr := taken.intr
  simp [Exceptions.excdec,Exceptions.intrEna,status] at intr

theorem taken_call (taken : Taken t x) : (t.next x offBits).core.execute.exReg = exceptionCall t.core.exc.excdec t.core.decode.decReg := by
  have injected : t.core.decode.injects t.core.exc.excdec = true := by
    simp [Decode.injects,taken.intr,taken.ready]
  rw [Tracked.next_core,next_exReg,if_pos taken.goes,
    show (t.core.flush || t.core.brflush) = false from taken.kept]
  exact if_pos injected

theorem held_keeps {held : List Cycle} (stays : Held offBits t held) :
    ((Tracked.system offBits).run t held).core.execute.exReg = t.core.execute.exReg ∧
    ((Tracked.system offBits).run t held).core.execute.predReg = t.core.execute.predReg := by
  induction held generalizing t with
  | nil => exact ⟨rfl,rfl⟩
  | cons x rest ih =>
    obtain ⟨exReg,predReg⟩ := ih stays.2
    exact ⟨exReg.trans (held_exReg stays.1),predReg.trans (held_predReg stays.1)⟩

theorem call_saves {u : Pipeline} {exc : ExcDec} {dec : FeDec} (call : u.execute.exReg = exceptionCall exc dec) (predTrue : u.execute.predReg 0 = true)
    (goes : u.enable y = true) (alive : u.flush = false) :
    (u.next y offBits).execute.excBaseReg = (exceptionCall exc dec).base ++ 0#2 ∧
    (u.next y offBits).execute.excOffReg = (exceptionCall exc dec).relPc ++ 0#2 ∧ (u.next y offBits).flush = true := by
  have live : u.execute.doExecute u.flush 0 = true := by
    have always := Pipeline.always_pred predTrue
    unfold Execute.doExecute DecEx.issue
    rw [alive,call]
    simpa [exceptionCall] using always
  have runs : u.execute.xcallRuns u.flush = true := by
    simp [Execute.xcallRuns,live,call,exceptionCall]
  refine ⟨?_,?_,?_⟩
  · have base : (u.next y offBits).execute.excBaseReg = u.execute.excBaseNext u.flush := if_pos goes
    rw [base,Execute.excBaseNext,if_pos runs,call]
  · have off : (u.next y offBits).execute.excOffReg = u.execute.excOffNext u.flush := if_pos goes
    rw [off,Execute.excOffNext,if_pos runs,call]
  · have memReg : (u.next y offBits).memory.memReg = u.exmem y := by
      rw [Pipeline.next_memReg,if_pos goes,alive]
      rfl
    have xcall : (u.exmem y).mem.xcall = true := runs
    simp [Pipeline.flush,Memory.flush,memReg,xcall]

theorem xret_target (sane : t.core.Sane) (runs : returns t = true) :
    t.core.doCallRet = true ∧ t.core.execute.callRetBase = t.core.execute.excBaseReg ∧
    t.core.execute.callRetAddr = t.core.execute.excOffReg := by
  simp only [returns,Bool.and_eq_true] at runs
  obtain ⟨xret,live⟩ := runs
  obtain ⟨call,xcall,brcf⟩ := DecEx.single_xret (sane.single (t.core.doExecute_armed live)) xret
  refine ⟨?_,?_,?_⟩
  · simp [doCallRet,Execute.doCallRet,DecEx.callRet,xret,live]
  · simp [Execute.callRetBase,call,xcall,brcf,xret]
  · simp [Execute.callRetAddr,call,xcall,brcf,xret]
end Taken

theorem interrupts_precise (path : Reached (Tracked.system offBits) t) (taken : takes t x = true) : Precise offBits t x := by
  have taken := takes_taken taken
  have covered := reached_covered path
  have sane := Tracked.reached_sane path
  constructor
  · exact covered_uncommitted covered taken.ready
  · intro held y stays u goes alive
    obtain ⟨exReg,predReg⟩ := held_keeps stays
    have predTrue := next_predTrue t.core x sane offBits
    have saves : _ ∧ _ ∧ (u.core.next y offBits).flush = true :=
      call_saves (exReg.trans (taken_call taken)) ((congrFun predReg 0).trans predTrue) goes alive
    simpa [exceptionCall,Exceptions.excdec,taken.noExc] using saves
  · intro v y held z reached admitted runs goes base off still ends placed inside
    obtain ⟨transfer,target,offset⟩ := xret_target (Tracked.reached_sane reached) runs
    have lands := Tracked.transfer_lands (Tracked.reached_addressed reached) admitted.2 transfer goes still ends
      (by rw [target,base,Tracked.word_address]; exact placed) (by rw [offset,off,Tracked.word_address]; exact inside)
    rw [lands.address,target,base,offset,off,Tracked.word_address,Tracked.word_address]
    have uncommitted := covered_uncommitted covered taken.ready
    have late := taken_late (reached_early path) taken
    exact ((Tracked.reached_addressed path).decoded uncommitted.second.1 uncommitted.third taken.noExc late).address placed

-- Two stores set the mask and the status of the exception unit, then the first interrupt line is raised.
def storeLocal : BitVec 32 := 0b0000001011#10 ++ 0b00001#5 ++ 0#17
def writesTo (addr data : BitVec 32) : Cycle := {fetches 0 0 with command := ⟨.wr,addr,data⟩}

def enabling : List Cycle :=
  [fetches storeLocal 0,fetches storeLocal 0,writesTo 4 0x10000,writesTo 0 3,
    {fetches 0 0 with intrs := 1},fetches 0 0]

theorem interrupts_precise_enabled :
    takes ((Tracked.system 12).run .begin enabling) (fetches 0 0) = true ∧
    Precise 12 ((Tracked.system 12).run .begin enabling) (fetches 0 0) := by
  have path : Reached (Tracked.system 12) ((Tracked.system 12).run .begin enabling) :=
    (Reached.start (Tracked.begin_starts 12)).run enabling (by decide +kernel)
  have taken : takes ((Tracked.system 12).run .begin enabling) (fetches 0 0) = true := by decide +kernel
  exact ⟨taken,interrupts_precise path taken⟩
end Patmos.Core.InterruptInjection
