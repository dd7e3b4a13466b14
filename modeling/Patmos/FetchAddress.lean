import Mathlib.Tactic.Abel
import Patmos.Pipeline
namespace Patmos.Core
open Transition

-- A method in the instruction SPM or in the boot ROM has a relative base that the fetch stage can hold.
def Placed (offBits : Nat) (base : BitVec 30) : Prop := inCache base = true ∨ (base.extractLsb' 0 14).toNat < 2^offBits

theorem truncate_small {value : BitVec 30} (small : value.toNat < 2^bits) : truncate bits value = value := by
  apply BitVec.eq_of_toNat_eq
  unfold truncate
  rw [BitVec.toNat_setWidth,BitVec.toNat_setWidth,Nat.mod_eq_of_lt small,Nat.mod_eq_of_lt value.isLt]

namespace Relocation
structure Settled (r : Relocation) (offBits : Nat) : Prop where
  spm : r.selSpmReg = inSpm r.callRetBaseReg
  cache : r.selCacheReg = inCache r.callRetBaseReg
  pos : r.posReg.toNat < 2^offBits

variable {r : Relocation} {offBits : Nat}

theorem next_settled (settled : r.Settled offBits) (goes : Bool) (base addr pos : BitVec 30) (small : pos.toNat < 2^offBits) :
    (r.next goes base addr pos).Settled offBits := by
  cases goes with
  | false => exact settled
  | true =>
    refine ⟨rfl,rfl,?_⟩
    show (if inCache base then pos else r.posReg).toNat < 2^offBits
    split
    · exact small
    · exact settled.pos

theorem relBase_small (settled : r.Settled offBits) (placed : Placed offBits r.callRetBaseReg) : r.relBase.toNat < 2^offBits := by
  unfold relBase
  rw [settled.cache]
  cases cached : inCache r.callRetBaseReg with
  | true => exact settled.pos
  | false =>
    cases placed with
    | inl cache => exact absurd (cache.symm.trans cached) (by decide)
    | inr low =>
      refine lt_of_le_of_lt ?_ low
      simp only [Bool.false_eq_true,if_false,BitVec.toNat_setWidth]
      exact Nat.mod_le _ _

-- The absolute address of a word of the method is its relative one plus the relocation, in all three memories.
theorem base_relBase (settled : r.Settled offBits) : r.callRetBaseReg-r.relBase = r.reloc.setWidth 30 := by
  unfold relBase reloc
  rw [settled.cache,settled.spm]
  cases cached : inCache r.callRetBaseReg with
  | true =>
    simp only [if_true]
    apply BitVec.eq_of_toNat_eq
    simp only [BitVec.toNat_sub,BitVec.toNat_setWidth]
    omega
  | false =>
    have low : r.callRetBaseReg.toNat < 2^15 := by
      simp only [inCache,decide_eq_false_iff_not] at cached
      omega
    apply BitVec.eq_of_toNat_eq
    cases spm : inSpm r.callRetBaseReg with
    | true =>
      simp only [inSpm,decide_eq_true_eq] at spm
      simp [BitVec.toNat_sub]
      omega
    | false =>
      simp only [inSpm,decide_eq_false_iff_not] at spm
      simp [BitVec.toNat_sub]
      omega
end Relocation

namespace Fetch
-- The base belongs to the relative base and the relocation of the stage.
def Fits (f : Fetch) (offBits : Nat) (base : BitVec 30) : Prop := Placed offBits base → base-f.relBaseReg = f.relocReg.setWidth 30

-- A bundle that was fetched with the relative base and relocation of the stage.
structure Near (f : Fetch) (offBits : Nat) (pc base relPc : BitVec 30) (reloc : BitVec 32) : Prop where
  relative : relPc = pc-f.relBaseReg
  relocated : reloc = f.relocReg
  fits : f.Fits offBits base

theorem Near.address {f : Fetch} (near : f.Near offBits pc base off reloc) (placed : Placed offBits base) :
    base+off = pc+reloc.setWidth 30 := by
  rw [near.relative,near.relocated,← near.fits placed]
  abel

variable {f : Fetch} {r : Relocation} {offBits : Nat}

theorem next_fits (settled : r.Settled offBits) (goes : ena = true) :
    (f.next offBits ena true doBranch branchPc r instrA).Fits offBits r.callRetBaseReg := by
  intro placed
  unfold next
  rw [if_pos goes]
  rw [truncate_small (Relocation.relBase_small settled placed)]
  exact Relocation.base_relBase settled

theorem next_fits_still (fits : f.Fits offBits base) :
    (f.next offBits ena false doBranch branchPc r instrA).Fits offBits base := by
  unfold next Fits
  split <;> exact fits

theorem next_near_still (near : f.Near offBits pc base off reloc) :
    (f.next offBits ena false doBranch branchPc r instrA).Near offBits pc base off reloc := by
  refine ⟨?_,?_,next_fits_still near.fits⟩
  · unfold next
    split <;> exact near.relative
  · unfold next
    split <;> exact near.relocated
end Fetch

open Pipeline
namespace Pipeline
variable {s : Pipeline} {x : Cycle} {offBits : Nat}

theorem doCallRet_idle (still : (s.armed && s.execute.exReg.callRet) = false) : s.doCallRet = false := by
  cases runs : s.doCallRet with
  | false => rfl
  | true =>
    simp only [doCallRet,Execute.doCallRet,Bool.and_eq_true] at runs
    rw [s.doExecute_armed runs.2,runs.1] at still
    exact absurd still (by decide)

theorem next_doCallRet (goes : s.enable x = true) : (s.next x offBits).memory.doCallRet = s.doCallRet := by
  unfold Memory.doCallRet
  rw [next_memReg,if_pos goes]
  split
  next flushed =>
    show false = s.doCallRet
    simp [doCallRet,Execute.doCallRet,Execute.doExecute,flushed]
  next =>
    simp only [exmem,Execute.exmem,doCallRet,Execute.doCallRet,DecEx.callRet]
    cases s.execute.doExecute s.flush 0 <;> simp

theorem next_doCallRet_held (held : s.enable x = false) : (s.next x offBits).memory.doCallRet = s.memory.doCallRet := by
  unfold Memory.doCallRet
  rw [next_memReg,held]
  rfl

theorem bit_ne_zero (src : BitVec 5) : bit src ≠ 0#32 := by
  revert src
  decide

theorem excReg_before (pending : s.exc.excReg = (s.exc.excPendReg != 0)) (silent : s.memory.doCallRet = false)
    (after : (s.next x offBits).exc.excReg = false) : s.exc.excReg = false := by
  have none : s.exc.excPend s.memory.exc = 0 := by
    have clear : (s.exc.excPend s.memory.exc != 0) = false := after
    simpa using clear
  have quiet : s.memory.exc.call = false := by
    simp only [Memory.doCallRet,Bool.or_eq_false_iff] at silent
    exact silent.1.2
  unfold Exceptions.excPend at none
  rw [quiet] at none
  rw [pending]
  dsimp only [if_false] at none
  split at none
  · simp [BitVec.or_eq_zero_iff] at none
    simp [none.1]
  · simp at none
    simp [none]

theorem excReg_raised (raised : s.memory.exc.exc = true) : (s.next x offBits).exc.excReg = true := by
  show (s.exc.excPend s.memory.exc != 0) = true
  unfold Exceptions.excPend
  simp [raised,bit_ne_zero]

theorem flush_raises (silent : s.memory.doCallRet = false) (flushed : s.flush = true) : s.memory.exc.exc = true := by
  simp only [Memory.doCallRet,Bool.or_eq_false_iff] at silent
  obtain ⟨⟨⟨⟨call,ret⟩,brcf⟩,xcall⟩,xret⟩ := silent
  simpa [flush,Memory.flush,Memory.exc,call,ret,brcf,xcall,xret] using flushed
end Pipeline

namespace Tracked
def gone (t : Tracked) (n : Nat) : Leaving := t.past.getD n ⟨false,false⟩

section
variable {t : Tracked} {x : Cycle} {offBits : Nat}

theorem gone_held (held : t.core.enable x = false) (n : Nat) : (t.next x offBits).gone n = t.gone n := by
  simp [gone,next,held]

theorem gone_zero (goes : t.core.enable x = true) :
    (t.next x offBits).gone 0 = ⟨t.core.doCallRet,t.core.doBranch⟩ := by
  simp [gone,next,goes]

theorem gone_succ (goes : t.core.enable x = true) (n : Nat) : (t.next x offBits).gone (n+1) = t.gone n := by
  simp [gone,next,goes]
end

-- The addresses along the pipeline, as long as no call or return and no exception is on its way.
structure Addressed (t : Tracked) (offBits : Nat) : Prop where
  settled : t.core.reloc.Settled offBits
  mem : t.core.memory.doCallRet = (t.gone 0).callRet
  pending : t.core.exc.excReg = (t.core.exc.excPendReg != 0)
  method : (t.gone 0).callRet = false → (t.core.armed && t.core.execute.exReg.callRet) = false → t.core.exc.excReg = false →
    t.core.fetch.Fits offBits t.core.reloc.callRetBaseReg
  fetched : (t.gone 0).callRet = false → t.core.exc.excReg = false → 1 ≤ t.past.length →
    t.core.fetch.Fits offBits t.core.fetch.baseReg
  decoded : (t.gone 0).callRet = false → (t.gone 1).callRet = false → t.core.exc.excReg = false → 2 ≤ t.past.length →
    t.core.fetch.Near offBits t.core.decode.decReg.pc t.core.decode.decReg.base t.core.decode.decReg.relPc
      t.core.decode.decReg.reloc
  executed : (t.gone 1).callRet = false → (t.gone 2).callRet = false → t.core.execute.exReg.xcall = false → 3 ≤ t.past.length →
    t.core.fetch.Near offBits t.core.execute.exReg.pc t.core.execute.exReg.base t.core.execute.exReg.relPc
      t.core.execute.exReg.jmpOp.reloc

section
variable {t : Tracked} {x : Cycle} {offBits : Nat}

theorem start_addressed (begun : (system offBits).start t) : t.Addressed offBits := by
  obtain ⟨reset,_,_,none⟩ := begun
  have method := reset.method
  constructor
  · rw [method]
    exact ⟨by decide,by decide,Nat.two_pow_pos offBits⟩
  · have quiet : t.core.memory.memReg.mem = t.core.memory.memReg.mem.flush := congrArg ExMem.mem reset.memReg.symm
    rw [gone,none,Memory.doCallRet,quiet]
    rfl
  · rw [reset.noExc.1,reset.noExc.2]
    rfl
  · intro _ _ _ _
    rw [method,reset.relBase,reset.reloc]
    rfl
  · intro _ _ later
    simp [none] at later
  · intro _ _ _ later
    simp [none] at later
  · intro _ _ _ later
    simp [none] at later

-- A transfer that does not run in a cycle that goes on is flushed, so an exception is raised.
theorem method_goes (addressed : t.Addressed offBits) (silent : (t.gone 0).callRet = false) (idle : t.core.doCallRet = false)
    (after : (t.core.next x offBits).exc.excReg = false) : t.core.fetch.Fits offBits t.core.reloc.callRetBaseReg := by
  have quiet : t.core.memory.doCallRet = false := addressed.mem.trans silent
  refine addressed.method silent ?_ (excReg_before addressed.pending quiet after)
  cases waits : t.core.armed && t.core.execute.exReg.callRet with
  | false => rfl
  | true =>
    simp only [Bool.and_eq_true] at waits
    have live : predOperand t.core.execute.predReg (t.core.execute.exReg.issue 0).pred = true := waits.1
    have flushed : t.core.flush = true := by
      simpa [doCallRet,Execute.doCallRet,Execute.doExecute,waits.2,live] using idle
    have raised : (t.core.next x offBits).exc.excReg = true := excReg_raised (flush_raises quiet flushed)
    exact absurd (raised.symm.trans after) (by decide)

theorem reloc_still (idle : t.core.doCallRet = false) : (t.core.next x offBits).reloc = t.core.reloc := by
  simp [Pipeline.next,Relocation.next,idle]

theorem Addressed.before (addressed : t.Addressed offBits) (silent : (t.gone 0).callRet = false) :
    (t.core.next x offBits).exc.excReg = false → t.core.exc.excReg = false :=
  excReg_before addressed.pending (addressed.mem.trans silent)

theorem addressed_held (addressed : t.Addressed offBits) (small : x.pos.toNat < 2^offBits) (held : t.core.enable x = false) :
    (t.next x offBits).Addressed offBits := by
  have length : (t.next x offBits).past = t.past := by simp [next,held]
  constructor
  · exact Relocation.next_settled addressed.settled _ _ _ _ small
  · rw [gone_held held,← addressed.mem]
    exact next_doCallRet_held held
  · rfl
  · intro silent waits after
    rw [gone_held held] at silent
    show (t.core.next x offBits).fetch.Fits offBits (t.core.next x offBits).reloc.callRetBaseReg
    have still : (t.core.armed && t.core.execute.exReg.callRet) = false := by
      simpa only [next,held_armed held,held_exReg held] using waits
    have idle := doCallRet_idle still
    rw [held_fetch held,reloc_still idle]
    exact addressed.method silent still (addressed.before silent after)
  · intro silent after later
    rw [gone_held held] at silent
    rw [length] at later
    show (t.core.next x offBits).fetch.Fits offBits (t.core.next x offBits).fetch.baseReg
    rw [held_fetch held]
    exact addressed.fetched silent (addressed.before silent after) later
  · intro silent older after later
    rw [gone_held held] at silent older
    rw [length] at later
    show (t.core.next x offBits).fetch.Near offBits _ _ _ _
    rw [held_fetch held]
    simp only [next,held_decode held]
    exact addressed.decoded silent older (addressed.before silent after) later
  · intro older oldest plain later
    rw [gone_held held] at older oldest
    rw [length] at later
    show (t.core.next x offBits).fetch.Near offBits _ _ _ _
    rw [held_fetch held]
    simp only [next,held_exReg held] at plain ⊢
    exact addressed.executed older oldest plain later

theorem decex_address (plain : t.core.decex.xcall = false) : t.core.decex.pc = t.core.decode.decReg.pc ∧
    t.core.decex.base = t.core.decode.decReg.base ∧ t.core.decex.relPc = t.core.decode.decReg.relPc ∧
    t.core.decex.jmpOp.reloc = t.core.decode.decReg.reloc := by
  unfold decex Decode.decex at plain ⊢
  split at plain
  · cases plain
  · rw [if_neg (by assumption)]
    exact decode_address _ t.core.decode.decReg _

theorem injects_exc (plain : t.core.decex.xcall = false) : t.core.exc.excReg = false := by
  unfold decex Decode.decex at plain
  split at plain
  · cases plain
  next kept =>
    simp only [Decode.injects,Bool.or_eq_true,not_or] at kept
    simpa [Exceptions.excdec] using kept.1

theorem addressed_goes (addressed : t.Addressed offBits) (small : x.pos.toNat < 2^offBits) (goes : t.core.enable x = true) :
    (t.next x offBits).Addressed offBits := by
  have length : (t.next x offBits).past.length = t.past.length+1 := by simp [next,goes]
  have fetch : (t.core.next x offBits).fetch =
      t.core.fetch.next offBits true (t.gone 0).callRet t.core.doBranch t.core.execute.branchPc t.core.reloc x.instrA := by
    rw [← addressed.mem,← goes]
    rfl
  have baseReg : (t.core.next x offBits).fetch.baseReg = t.core.reloc.callRetBaseReg := by
    rw [fetch]
    rfl
  -- In all cases the stage has the method that the relocation unit had.
  have arrives : t.core.doCallRet = false → (t.core.next x offBits).exc.excReg = false →
      (t.core.next x offBits).fetch.Fits offBits t.core.reloc.callRetBaseReg := by
    intro idle after
    rw [fetch]
    cases silent : (t.gone 0).callRet with
    | true => exact Fetch.next_fits addressed.settled rfl
    | false => exact Fetch.next_fits_still (method_goes addressed silent idle after)
  constructor
  · exact Relocation.next_settled addressed.settled _ _ _ _ small
  · rw [gone_zero goes]
    exact next_doCallRet goes
  · rfl
  · intro silent _ after
    rw [gone_zero goes] at silent
    show (t.core.next x offBits).fetch.Fits offBits (t.core.next x offBits).reloc.callRetBaseReg
    rw [reloc_still silent]
    exact arrives silent after
  · intro silent after _
    rw [gone_zero goes] at silent
    show (t.core.next x offBits).fetch.Fits offBits (t.core.next x offBits).fetch.baseReg
    rw [baseReg]
    exact arrives silent after
  · intro _ silent after later
    rw [gone_succ goes] at silent
    have fits := addressed.fetched silent (addressed.before silent after) (by omega)
    have near : t.core.fetch.Near offBits t.core.fetch.pcReg t.core.fetch.baseReg t.core.fetch.relPc t.core.fetch.relocReg :=
      ⟨rfl,rfl,fits⟩
    show (t.core.next x offBits).fetch.Near offBits _ _ _ _
    rw [fetch,silent]
    simp only [next]
    rw [next_decReg t.core x offBits goes]
    split <;> exact Fetch.next_near_still near
  · intro silent older plain later
    rw [gone_succ goes] at silent older
    rw [exReg_goes goes] at plain ⊢
    have natural : t.core.decex.xcall = false := by
      split at plain <;> exact plain
    have near := addressed.decoded silent older (injects_exc natural) (by omega)
    obtain ⟨pc,base,relPc,reloc⟩ := decex_address natural
    rw [← pc,← base,← relPc,← reloc] at near
    show (t.core.next x offBits).fetch.Near offBits _ _ _ _
    rw [fetch,silent]
    split <;> exact Fetch.next_near_still near

theorem reached_addressed (path : Reached (system offBits) t) : t.Addressed offBits := by
  induction path with
  | start begun => exact start_addressed begun
  | @step t x _ admitted ih =>
    cases goes : t.core.enable x with
    | true => exact addressed_goes ih admitted.2 goes
    | false => exact addressed_held ih admitted.2 goes

def fetchAddress (t : Tracked) : BitVec 30 := t.core.fetch.pcReg+t.core.fetch.relocReg.setWidth 30

def Undisturbed (offBits : Nat) : Tracked → List Cycle → Prop
  | _,[] => True
  | t,x :: rest => t.core.enable x = false ∧ t.core.doCallRet = false ∧ Undisturbed offBits (t.next x offBits) rest

theorem undisturbed_keeps {held : List Cycle} (still : Undisturbed offBits t held) :
    ((system offBits).run t held).core.reloc = t.core.reloc ∧
    ((system offBits).run t held).core.memory.doCallRet = t.core.memory.doCallRet := by
  induction held generalizing t with
  | nil => exact ⟨rfl,rfl⟩
  | cons x rest ih =>
    obtain ⟨stays,idle,rest⟩ := still
    obtain ⟨reloc,mem⟩ := ih rest
    exact ⟨reloc.trans (reloc_still idle),mem.trans (next_doCallRet_held stays)⟩

theorem word_address (value : BitVec 30) : (value ++ 0#2).extractLsb' 2 30 = value := by
  apply BitVec.eq_of_toNat_eq
  rw [BitVec.extractLsb'_toNat,append_toNat]
  omega

structure Lands (t : Tracked) (base off : BitVec 30) : Prop where
  address : t.fetchAddress = base+off
  base : t.core.fetch.baseReg = base
  relPc : t.core.fetch.relPc = off

theorem fetch_lands {doBranch : Bool} {f : Fetch} {r : Relocation} (settled : r.Settled offBits) (placed : Placed offBits r.callRetBaseReg)
    (inside : r.callAddrReg.toNat ≤ 2^offBits)
    (fetch : t.core.fetch = f.next offBits true true doBranch branchPc r instrA) : t.Lands r.callRetBaseReg r.callAddrReg := by
  have low := Relocation.relBase_small settled placed
  have whole : truncate (offBits+1) r.relPc = r.callAddrReg+r.relBase := by
    apply truncate_small
    exact lt_of_le_of_lt (Nat.mod_le _ _) (by omega)
  have pcReg : t.core.fetch.pcReg = r.callAddrReg+r.relBase := by rw [fetch,← whole]; rfl
  have relBaseReg : t.core.fetch.relBaseReg = r.relBase := by rw [fetch,← truncate_small low]; rfl
  have relocReg : t.core.fetch.relocReg = r.reloc := by rw [fetch]; rfl
  constructor
  · rw [fetchAddress,pcReg,relocReg,← Relocation.base_relBase settled]
    abel
  · rw [fetch]
    rfl
  · rw [Fetch.relPc,pcReg,relBaseReg]
    abel

-- Wherever the method is placed now, a transfer ends at the word of the method that it names.
theorem transfer_lands {held : List Cycle} (addressed : t.Addressed offBits) (small : x.pos.toNat < 2^offBits)
    (runs : t.core.doCallRet = true) (goes : t.core.enable x = true) (still : Undisturbed offBits (t.next x offBits) held)
    (ends : ((system offBits).run (t.next x offBits) held).core.enable y = true)
    (placed : Placed offBits (t.core.execute.callRetBase.extractLsb' 2 30))
    (inside : (t.core.execute.callRetAddr.extractLsb' 2 30).toNat ≤ 2^offBits) :
    (((system offBits).run (t.next x offBits) held).next y offBits).Lands (t.core.execute.callRetBase.extractLsb' 2 30)
      (t.core.execute.callRetAddr.extractLsb' 2 30) := by
  have accepts : t.core.icacheEnaIn x = true := by
    simp only [Pipeline.enable,Pipeline.enaIn,Bool.and_eq_true] at goes
    simp [Pipeline.icacheEnaIn,goes]
  obtain ⟨reloc,mem⟩ := undisturbed_keeps still
  have moved : (t.next x offBits).core.memory.doCallRet = true := (Pipeline.next_doCallRet goes).trans runs
  have taken : (t.next x offBits).core.reloc.callRetBaseReg = t.core.execute.callRetBase.extractLsb' 2 30 ∧
      (t.next x offBits).core.reloc.callAddrReg = t.core.execute.callRetAddr.extractLsb' 2 30 := by
    simp [next,Pipeline.next,Relocation.next,runs,accepts]
  have settled := (addressed_goes addressed small goes).settled
  rw [← taken.1] at placed ⊢
  rw [← taken.2] at inside ⊢
  generalize (system offBits).run (t.next x offBits) held = u at reloc mem ends ⊢
  have fetch : (u.next y offBits).core.fetch = u.core.fetch.next offBits (u.core.enable y) u.core.memory.doCallRet
      u.core.doBranch u.core.execute.branchPc u.core.reloc y.instrA := rfl
  rw [ends,mem.trans moved,reloc] at fetch
  exact fetch_lands settled placed inside fetch
end
end Tracked
end Patmos.Core
