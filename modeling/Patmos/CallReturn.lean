import Patmos.InterruptInjection
import Patmos.MCache
namespace Patmos.Core
open Tracked Pipeline BitVec Execute MCacheReplFifo

-- The registers of the replacement unit that place a method. Whatever method the cache has evicted or loaded shows in
-- `pos` only.
def relocation (r : MCacheReplFifo) : Relocation where
  callRetBaseReg := .ofNat 30 r.callRetBaseReg
  callAddrReg := .ofNat 30 r.callAddrReg
  posReg := .ofNat 30 r.posReg
  selSpmReg := r.selSpmReg
  selCacheReg := r.selCacheReg

section Relocation
variable {g : MethodGeometry} {r : MCacheReplFifo} {ex : ExICache}

theorem inSpm_ofNat (small : base < 2^30) : inSpm (.ofNat 30 base) = selSpm 16 base := by
  unfold inSpm selSpm
  rw [toNat_ofNat,Nat.mod_eq_of_lt small]

theorem inCache_ofNat (small : base < 2^30) : inCache (.ofNat 30 base) = selCache 16 base := by
  unfold inCache selCache
  rw [toNat_ofNat,Nat.mod_eq_of_lt small]

theorem relocation_next (small : ex.callRetBase < 2^30) :
    relocation (r.next g 16 ena invalidate ex ctrl mem) =
      (relocation r).next (ex.doCallRet && ena) (.ofNat 30 ex.callRetBase) (.ofNat 30 ex.callRetAddr)
        (.ofNat 30 (r.pos g ex.callRetBase)) := by
  unfold relocation MCacheReplFifo.next Relocation.next
  cases goes : ex.doCallRet && ena with
  | false => simp
  | true => simp [inSpm_ofNat small,inCache_ofNat small,apply_ite (BitVec.ofNat 30)]

theorem relocation_mcachefe (r : MCacheReplFifo) (base : r.callRetBaseReg < 2^30) (pos : r.posReg < 2^30)
    (mem : Banked (Word 4)) (stall : Bool) :
    (relocation r).relBase = .ofNat 30 (r.mcachefe 16 mem stall).relBase ∧
    (relocation r).relPc = .ofNat 30 (r.mcachefe 16 mem stall).relPc ∧
    (relocation r).reloc = .ofNat 32 (r.mcachefe 16 mem stall).reloc := by
  have relBase : (relocation r).relBase = .ofNat 30 (r.mcachefe 16 mem stall).relBase := by
    apply eq_of_toNat_eq
    unfold Relocation.relBase relocation mcachefe
    split
    · rfl
    · simp only [toNat_setWidth,extractLsb'_toNat,toNat_ofNat]
      omega
  refine ⟨relBase,?_,?_⟩
  · apply eq_of_toNat_eq
    rw [Relocation.relPc,relBase]
    simp only [relocation,mcachefe,toNat_add,toNat_ofNat]
    omega
  · apply eq_of_toNat_eq
    unfold Relocation.reloc relocation mcachefe
    split
    · simp only [toNat_sub,toNat_setWidth,toNat_ofNat]
      omega
    · split
      · rfl
      · rfl
end Relocation

namespace CallReturn
open Transition

section
variable (code : BitVec 30 → BitVec 32) (nonDelayed : Bool) (address : BitVec 30)

-- The words of the program by their address. The instruction memories deliver them in the fetch stage, also while the
-- pipeline stands still.
def Delivers (t : Tracked) (x : Cycle) : Prop := x.instrA = code t.fetchAddress ∧ x.instrB = code (t.fetchAddress+1)

def programmed (offBits : Nat) : System Tracked Cycle := (Tracked.system offBits).restrict (Delivers code)

def calls (t : Tracked) : Bool := t.core.execute.callRuns t.core.flush
def returns (t : Tracked) : Bool := t.core.execute.exReg.ret && t.core.execute.doExecute t.core.flush 0

def executeAddress (t : Tracked) : BitVec 30 := t.core.execute.exReg.pc+t.core.execute.exReg.jmpOp.reloc.setWidth 30

def follow : BitVec 30 := address+bundleSize (code address)

def resumes : BitVec 30 :=
  if nonDelayed then follow code address else follow code (follow code (follow code (follow code address)))

-- A return that has the base and the offset saved by a call comes back to the bundle after the call. The offset is
-- saved in the cycle after the call has left the execute stage, whether the pipeline goes on in it or not.
def Returning (offBits : Nat) (m : System Tracked Cycle) : Prop :=
  ∀ t x y v z held w, Reached m t → m.admits t x → m.admits (t.next x offBits) y → calls t = true → t.core.enable x = true →
    Reached m v → m.admits v z → returns v = true → v.core.enable z = true →
    v.core.execute.retBaseReg = (t.next x offBits).core.execute.retBaseReg →
    v.core.execute.retOffReg = ((t.next x offBits).next y offBits).core.execute.retOffReg →
    Placed offBits (v.core.execute.retBaseReg.extractLsb' 2 30) → (v.core.execute.retOffReg.extractLsb' 2 30).toNat ≤ 2^offBits →
    Tracked.Undisturbed offBits (v.next z offBits) held →
    ((Tracked.system offBits).run (v.next z offBits) held).core.enable w = true →
      (((Tracked.system offBits).run (v.next z offBits) held).next w offBits).fetchAddress =
        resumes code t.core.execute.exReg.nonDelayed (executeAddress t)

-- The call is not the first bundle after reset, not in a delay slot, and no exception takes the place of the bundle
-- behind it.
structure Regular (t : Tracked) : Prop where
  later : 3 ≤ t.past.length
  transfers : (t.gone 0).callRet = false ∧ (t.gone 1).callRet = false ∧ (t.gone 2).callRet = false
  branches : (t.gone 0).branch = false ∧ (t.gone 1).branch = false
  noExc : t.core.exc.excReg = false

def CallsRegular (t : Tracked) (_ : Cycle) : Prop := calls t = true → Regular t

-- The bundles in the stages follow each other, transfers and branches apart.
structure Sequence (t : Tracked) : Prop where
  fetched : (t.gone 1).callRet = false → (t.gone 0).branch = false → 1 ≤ t.past.length →
    t.core.fetch.pcReg = t.core.decode.decReg.pc+
      bundleSize (code (t.core.decode.decReg.pc+t.core.decode.decReg.reloc.setWidth 30))
  decoded : (t.gone 2).callRet = false → (t.gone 1).branch = false → t.core.execute.exReg.xcall = false → 2 ≤ t.past.length →
    t.core.decode.decReg.pc = t.core.execute.exReg.pc+bundleSize (code (executeAddress t))
end

section Step
variable {code : BitVec 30 → BitVec 32} {t : Tracked} {x : Cycle} {offBits : Nat}

theorem fetch_goes_on (addressed : t.Addressed offBits) (delivers : Delivers code t x) (goes : t.core.enable x = true)
    (silent : (t.gone 0).callRet = false) (straight : t.core.doBranch = false) :
    (t.next x offBits).core.fetch.pcReg = t.core.fetch.pcReg+bundleSize (code t.fetchAddress) ∧
    (t.next x offBits).core.fetch.relBaseReg = t.core.fetch.relBaseReg ∧
    (t.next x offBits).core.fetch.relocReg = t.core.fetch.relocReg := by
  have fetch : (t.next x offBits).core.fetch = t.core.fetch.next offBits (t.core.enable x) t.core.memory.doCallRet
      t.core.doBranch t.core.execute.branchPc t.core.reloc x.instrA := rfl
  rw [goes,addressed.mem,silent,straight,delivers.1] at fetch
  rw [fetch]
  exact ⟨rfl,rfl,rfl⟩

theorem sequence_held (sequence : Sequence code t) (held : t.core.enable x = false) : Sequence code (t.next x offBits) := by
  have length : (t.next x offBits).past = t.past := by simp [Tracked.next,held]
  constructor
  all_goals simp only [gone_held held,next_core,held_exReg held,held_decode held,
    held_fetch held,length,executeAddress]
  · exact sequence.fetched
  · exact sequence.decoded

theorem sequence_goes (sequence : Sequence code t) (addressed : t.Addressed offBits) (delivers : Delivers code t x)
    (goes : t.core.enable x = true) : Sequence code (t.next x offBits) := by
  have length : (t.next x offBits).past.length = t.past.length+1 := by simp [Tracked.next,goes]
  have decReg : (t.next x offBits).core.decode.decReg.pc = t.core.fetch.pcReg ∧
      (t.next x offBits).core.decode.decReg.reloc = t.core.fetch.relocReg := by
    rw [next_core,next_decReg t.core x offBits goes]
    split <;> exact ⟨rfl,rfl⟩
  constructor
  · intro silent straight _
    rw [gone_succ goes] at silent
    rw [gone_zero goes] at straight
    rw [(fetch_goes_on addressed delivers goes silent straight).1,decReg.1,decReg.2]
    rfl
  · intro silent straight plain later
    rw [gone_succ goes] at silent straight
    have exReg := @exReg_goes x offBits t goes
    have natural : t.core.decex.xcall = false := by
      rw [exReg] at plain
      split at plain <;> exact plain
    obtain ⟨pc,-,-,reloc⟩ := decex_address natural
    have same : (t.next x offBits).core.execute.exReg.pc = t.core.decode.decReg.pc ∧
        (t.next x offBits).core.execute.exReg.jmpOp.reloc = t.core.decode.decReg.reloc := by
      rw [exReg]
      split <;> exact ⟨pc,reloc⟩
    rw [executeAddress,same.1,same.2,decReg.1]
    exact sequence.fetched silent straight (by omega)

theorem reached_sequence (path : Reached (programmed code offBits) t) : Sequence code t := by
  induction path with
  | start begun =>
    constructor
    · intro _ _ later
      simp [begun.2.2.2] at later
    · intro _ _ _ later
      simp [begun.2.2.2] at later
  | @step t x before admitted ih =>
    cases goes : t.core.enable x with
    | true => exact sequence_goes ih (Tracked.reached_addressed before.relax) admitted.2 goes
    | false => exact sequence_held ih goes
end Step

section Call
variable {code : BitVec 30 → BitVec 32} {t v : Tracked} {x y : Cycle} {offBits : Nat}

structure Calling (code : BitVec 30 → BitVec 32) (offBits : Nat) (t : Tracked) : Prop where
  runs : calls t = true
  sane : t.core.Sane
  addressed : t.Addressed offBits
  sequence : Sequence code t
  covered : InterruptInjection.Covered t
  regular : Regular t

section
variable (calling : Calling code offBits t)
include calling

theorem Calling.flags : t.core.execute.exReg.xcall = false ∧ t.core.doBranch = false ∧ t.core.doCallRet = true := by
  have runs := calling.runs
  simp only [calls,callRuns,Bool.and_eq_true] at runs
  obtain ⟨call,live⟩ := runs
  obtain ⟨xcall,branch⟩ := DecEx.single_call (calling.sane.single (t.core.doExecute_armed live)) call
  refine ⟨xcall,?_,?_⟩
  · simp [Pipeline.doBranch,Execute.doBranch,branch]
  · simp [Pipeline.doCallRet,Execute.doCallRet,DecEx.callRet,call,live]

theorem Calling.decex (goes : t.core.enable x = true) :
    (t.next x offBits).core.execute.exReg.relPc = t.core.decode.decReg.relPc := by
  obtain ⟨_,_,transfer⟩ := calling.flags
  have kept : (t.next x offBits).core.execute.exReg = t.core.decex := by
    rw [next_core,next_exReg,if_pos goes,transfer_unflushed t.core calling.sane transfer]
    rfl
  have waits : t.core.decode.inDelaySlot = 3 := by
    simp only [Pipeline.doCallRet,Execute.doCallRet,Bool.and_eq_true] at transfer
    exact calling.covered.transfer (t.core.doExecute_armed transfer.2) transfer.1
  have plain : t.core.decode.injects t.core.exc.excdec = false := by
    have none : t.core.exc.excdec.exc = false := calling.regular.noExc
    simp [Decode.injects,none,waits]
  rw [kept,Pipeline.decex,Decode.decex,plain]
  exact (decode_address t.core.exc.excdec.inLocal t.core.decode.decReg t.core.rf.rsData).2.2.1

theorem Calling.nearExecute :
    t.core.fetch.Near offBits t.core.execute.exReg.pc t.core.execute.exReg.base t.core.execute.exReg.relPc
      t.core.execute.exReg.jmpOp.reloc :=
  calling.addressed.executed calling.regular.transfers.2.1 calling.regular.transfers.2.2 calling.flags.1 calling.regular.later

theorem Calling.nearDecode :
    t.core.fetch.Near offBits t.core.decode.decReg.pc t.core.decode.decReg.base t.core.decode.decReg.relPc
      t.core.decode.decReg.reloc :=
  calling.addressed.decoded calling.regular.transfers.1 calling.regular.transfers.2.1 calling.regular.noExc
    (le_trans (by decide) calling.regular.later)

theorem Calling.decodeAddress :
    t.core.decode.decReg.pc+t.core.fetch.relocReg.setWidth 30 = follow code (executeAddress t) := by
  have next := calling.sequence.decoded calling.regular.transfers.2.2 calling.regular.branches.2 calling.flags.1
    (le_trans (by decide) calling.regular.later)
  rw [next,follow,← calling.nearExecute.relocated]
  nth_rewrite 2 [executeAddress]
  abel

theorem Calling.fetchAddress : t.fetchAddress = follow code (follow code (executeAddress t)) := by
  have next := calling.sequence.fetched calling.regular.transfers.2.1 calling.regular.branches.1
    (le_trans (by decide) calling.regular.later)
  rw [← calling.decodeAddress,Tracked.fetchAddress,next,follow,calling.nearDecode.relocated]
  abel

theorem Calling.saves (goes : t.core.enable x = true) :
    (t.next x offBits).core.execute.retBaseReg = t.core.execute.exReg.base ++ 0#2 ∧
    ((t.next x offBits).next y offBits).core.execute.retOffReg =
      (if t.core.execute.exReg.nonDelayed then t.core.decode.decReg.relPc
        else (t.next x offBits).core.fetch.feexPc y.instrA) ++ 0#2 := by
  have runs : t.core.execute.callRuns t.core.flush = true := calling.runs
  have input : enaIn x = true := by
    simp only [enable,Bool.and_eq_true] at goes
    exact goes.1
  constructor
  · show (if t.core.enable x then t.core.execute.retBaseNext t.core.flush else t.core.execute.retBaseReg) = _
    rw [if_pos goes,retBaseNext,runs]
    rfl
  · have saves : (t.next x offBits).core.execute.saveRetOff = true := by
      show (t.core.execute.callRuns t.core.flush && enaIn x) = true
      rw [runs,input]
      rfl
    have behind : (t.next x offBits).core.execute.exReg.relPc = t.core.decode.decReg.relPc := calling.decex goes
    rw [← behind]
    show (if (t.next x offBits).core.execute.saveRetOff then _ else _) = _
    rw [if_pos saves]
    rfl

theorem Calling.resumes (goes : t.core.enable x = true) (delivers : Delivers code t x)
    (after : Delivers code (t.next x offBits) y) (placed : Placed offBits t.core.execute.exReg.base) :
    t.core.execute.exReg.base+(if t.core.execute.exReg.nonDelayed then t.core.decode.decReg.relPc
        else (t.next x offBits).core.fetch.feexPc y.instrA) =
      resumes code t.core.execute.exReg.nonDelayed (executeAddress t) := by
  have base : t.core.execute.exReg.base = t.core.fetch.relBaseReg+t.core.fetch.relocReg.setWidth 30 := by
    rw [← calling.nearExecute.fits placed]
    abel
  unfold CallReturn.resumes
  split
  · rw [← calling.decodeAddress,calling.nearDecode.relative,base]
    abel
  · obtain ⟨pcReg,relBaseReg,relocReg⟩ :=
      fetch_goes_on calling.addressed delivers goes calling.regular.transfers.1 calling.flags.2.1
    have third : (t.next x offBits).fetchAddress = follow code t.fetchAddress := by
      rw [Tracked.fetchAddress,pcReg,relocReg,add_right_comm]
      rfl
    have fourth : (t.next x offBits).fetchAddress = (t.next x offBits).core.fetch.pcReg+t.core.fetch.relocReg.setWidth 30 := by
      rw [Tracked.fetchAddress,relocReg]
    rw [← calling.fetchAddress,← third,Fetch.feexPc,Fetch.relPc,after.1,relBaseReg,base,follow]
    generalize bundleSize (code (t.next x offBits).fetchAddress) = size
    rw [fourth]
    abel
end

theorem returns_transfer (sane : v.core.Sane) (runs : returns v = true) :
    v.core.doCallRet = true ∧ v.core.execute.callRetBase = v.core.execute.retBaseReg ∧
    v.core.execute.callRetAddr = v.core.execute.retOffReg := by
  simp only [returns,Bool.and_eq_true] at runs
  obtain ⟨ret,live⟩ := runs
  obtain ⟨call,xcall,brcf,xret⟩ := DecEx.single_ret (sane.single (v.core.doExecute_armed live)) ret
  refine ⟨?_,?_,?_⟩
  · simp [Pipeline.doCallRet,Execute.doCallRet,DecEx.callRet,ret,live]
  · simp [callRetBase,call,xcall,brcf,xret]
  · simp [callRetAddr,call,xcall,brcf,xret]
end Call

theorem calls_resume (code : BitVec 30 → BitVec 32) (offBits : Nat) :
    Returning code offBits ((programmed code offBits).restrict CallsRegular) := by
  intro t x y v z held w path first second runs goes later last ret leaves base off placed inside still ends
  have before := path.relax
  have calling : Calling code offBits t :=
    ⟨runs,Tracked.reached_sane before.relax,Tracked.reached_addressed before.relax,reached_sequence before,
      InterruptInjection.reached_covered before.relax,first.2 runs⟩
  obtain ⟨savedBase,savedOff⟩ := calling.saves (y := y) goes
  rw [savedBase] at base
  rw [savedOff] at off
  obtain ⟨transfer,callRetBase,callRetAddr⟩ := returns_transfer (Tracked.reached_sane later.relax.relax) ret
  rw [← callRetBase] at placed base
  rw [← callRetAddr] at inside off
  have lands := Tracked.transfer_lands (Tracked.reached_addressed later.relax.relax) last.1.1.2 transfer leaves still ends
    placed inside
  rw [lands.address,base,off,Tracked.word_address,Tracked.word_address]
  rw [base,Tracked.word_address] at placed
  exact calling.resumes goes first.1.2 second.1.2 placed

section Runs
instance (code : BitVec 30 → BitVec 32) (t : Tracked) (x : Cycle) : Decidable (Delivers code t x) :=
  inferInstanceAs (Decidable (_ ∧ _))

instance (code : BitVec 30 → BitVec 32) (offBits : Nat) (t : Tracked) (x : Cycle) :
    Decidable ((programmed code offBits).admits t x) :=
  inferInstanceAs (Decidable (((Tracked.system offBits).restrict (Delivers code)).admits t x))

instance (t : Tracked) : Decidable (Regular t) :=
  decidable_of_iff (3 ≤ t.past.length ∧
      ((t.gone 0).callRet = false ∧ (t.gone 1).callRet = false ∧ (t.gone 2).callRet = false) ∧
      ((t.gone 0).branch = false ∧ (t.gone 1).branch = false) ∧ t.core.exc.excReg = false)
    ⟨fun ⟨later,transfers,branches,noExc⟩ => ⟨later,transfers,branches,noExc⟩,
      fun regular => ⟨regular.later,regular.transfers,regular.branches,regular.noExc⟩⟩

instance (t : Tracked) (x : Cycle) : Decidable (CallsRegular t x) := inferInstanceAs (Decidable (_ → _))

def delivery (code : BitVec 30 → BitVec 32) (t : Tracked) : Cycle :=
  fetches (code t.fetchAddress) (code (t.fetchAddress+1))

def deliveries (code : BitVec 30 → BitVec 32) : Nat → Tracked → List Cycle
  | 0,_ => []
  | n+1,t => delivery code t :: deliveries code n (t.next (delivery code t) 12)

-- A call of a subroutine at the word 16 of the boot ROM that returns at once.
def subroutine (site address : BitVec 30) : BitVec 32 :=
  if address = site then 0#5 ++ 0b10001#5 ++ 16#22 else if address = 16 then 0#5 ++ 0b11001#5 ++ 0#22 else 0

def after (site : BitVec 30) (cycles : Nat) : Tracked :=
  (Tracked.system 12).run .begin (deliveries (subroutine site) cycles .begin)

theorem after_reached (admitted : (programmed (subroutine site) 12).Admits .begin (deliveries (subroutine site) n .begin)) :
    Reached (programmed (subroutine site) 12) (after site n) := by
  have path := (Reached.start (m := programmed (subroutine site) 12) (Tracked.begin_starts 12)).run _ admitted
  rw [programmed,System.restrict_run] at path
  exact path

theorem after_regular (admitted : ((programmed (subroutine site) 12).restrict CallsRegular).Admits .begin
      (deliveries (subroutine site) n .begin)) :
    Reached ((programmed (subroutine site) 12).restrict CallsRegular) (after site n) := by
  have path := (Reached.start (m := (programmed (subroutine site) 12).restrict CallsRegular) (Tracked.begin_starts 12)).run _
    admitted
  rw [System.restrict_run] at path
  nth_rewrite 2 [programmed] at path
  rw [System.restrict_run] at path
  exact path
end Runs

theorem calls_resume_second :
    calls (after 2 3) = true ∧ returns (after 2 7) = true ∧
    (after 2 9).fetchAddress = resumes (subroutine 2) false (executeAddress (after 2 3)) := by
  refine ⟨by decide +kernel,by decide +kernel,?_⟩
  exact calls_resume (subroutine 2) 12 (after 2 3) (delivery (subroutine 2) (after 2 3)) (delivery (subroutine 2) (after 2 4))
    (after 2 7) (delivery (subroutine 2) (after 2 7)) [] (delivery (subroutine 2) (after 2 8)) (after_regular (by decide +kernel))
    (by decide +kernel) (by decide +kernel) (by decide +kernel) (by decide +kernel) (after_regular (by decide +kernel))
    (by decide +kernel) (by decide +kernel) (by decide +kernel) (by decide +kernel) (by decide +kernel)
    (.inr (by decide +kernel)) (by decide +kernel) trivial (by decide +kernel)

-- The base register of the fetch stage starts with zero, the method with one.
theorem first_call_misses : ¬Returning (subroutine 1) 12 (programmed (subroutine 1) 12) := by
  intro returning
  have lands := returning (after 1 2) (delivery (subroutine 1) (after 1 2)) (delivery (subroutine 1) (after 1 3))
    (after 1 6) (delivery (subroutine 1) (after 1 6)) [] (delivery (subroutine 1) (after 1 7)) (after_reached (by decide +kernel))
    (by decide +kernel) (by decide +kernel) (by decide +kernel) (by decide +kernel) (after_reached (by decide +kernel))
    (by decide +kernel) (by decide +kernel) (by decide +kernel) (by decide +kernel) (by decide +kernel)
    (.inr (by decide +kernel)) (by decide +kernel) trivial (by decide +kernel)
  have resume : resumes (subroutine 1) (after 1 2).core.execute.exReg.nonDelayed (executeAddress (after 1 2)) = 5 := by
    decide +kernel
  have fetched : (after 1 8).fetchAddress = 4 := by decide +kernel
  exact absurd (fetched.symm.trans (lands.trans resume)) (by decide)
end CallReturn
end Patmos.Core
