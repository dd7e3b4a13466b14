import Patmos.Exceptions
namespace Patmos.Core
open Transition Exceptions BitVec Bool

structure ExcInput where
  ena : Bool
  mem : MemExc
  command : ExcCommand
  intrs : BitVec 16

namespace Exceptions
variable (e : Exceptions)

def requests (src : BitVec 5) : Bool := (e.intrsReg ++ 0#16).getLsbD src.toNat

-- A command without its answer: the write that puts the processor to sleep.
def unanswered : Bool := e.ocpResp == .null && (e.masterReg.cmd != .idle || e.sleepReg)
end Exceptions

-- Of an acknowledgement that is stalled the state keeps the source and whether a request of it has been latched behind
-- its first cycle.
structure ExcState where
  unit : Exceptions
  ack : Option (BitVec 5)
  late : Bool

namespace ExcState
variable (s : ExcState) (x : ExcInput)

def stalls (x : ExcInput) : Bool := x.mem.call && !x.ena

def source : BitVec 5 := s.ack.getD x.mem.src

def next : ExcState where
  unit := s.unit.next x.ena x.mem x.command x.intrs
  ack := if stalls x then some (s.source x) else none
  late := stalls x && (s.late || s.ack.isSome && s.unit.requests (s.source x))
end ExcState

-- The call is held while the pipeline is stalled, its source except in a cycle that raises an exception. A command
-- waits for the answer of the one before.
def exceptions : System ExcState ExcInput where
  start := fun s => s.unit.statusReg = 2#32 ∧ s.unit.localModeReg = false ∧ s.unit.sleepReg = false ∧ s.unit.excPendReg = 0#32 ∧
    s.unit.intrPendReg = 0#32 ∧ s.ack = none ∧ s.late = false
  admits := fun s x => (s.ack.isSome = true → x.mem.call = true ∧ (x.mem.exc = false → x.mem.src = s.source x)) ∧
    (s.unit.unanswered = true → x.command.cmd = .idle)
  next := ExcState.next

instance (s : ExcState) (x : ExcInput) : Decidable (exceptions.admits s x) :=
  inferInstanceAs (Decidable ((_ → _ ∧ (_ → _)) ∧ (_ → _)))

attribute [local simp] ExcState.next Exceptions.next

section Privilege
-- The write that puts the processor to sleep is the only one that waits.
theorem asleep_idle (path : Reached exceptions s) : s.unit.sleepReg = true → s.unit.masterReg.cmd = .idle := by
  refine @Reached.invariant _ _ s _ (fun s => s.unit.sleepReg = true → s.unit.masterReg.cmd = .idle) path ?_ ?_
  · intro s begun asleep
    rw [begun.2.2.1] at asleep
    exact absurd asleep false_ne_true
  · intro s x idle admitted asleep
    refine admitted.2 ?_
    have awake : s.unit.wakes = false := by
      by_contra wakes
      have off : (s.next x).unit.sleepReg = false := by simp [wakes]
      exact absurd (off.symm.trans asleep) false_ne_true
    have sleeps : (if s.unit.writes 4 then true else s.unit.sleepReg) = true := by
      simpa [exceptions,awake] using asleep
    by_cases before : s.unit.sleepReg = true
    · simp [unanswered,ocpResp,awake,idle before,before]
    · have write : s.unit.writes 4 = true := by simpa [before] using sleeps
      simp only [writes,and_eq_true,beq_iff_eq] at write
      obtain ⟨⟨cmd,register⟩,super⟩ := write
      simp [unanswered,ocpResp,awake,cmd,register,super]

structure Confined (before after : Exceptions) : Prop where
  user : after.superMode = false
  mask : after.maskReg = before.maskReg
  source : after.sourceReg = before.sourceReg
  localMode : after.localModeReg = before.localModeReg
  vec : after.vec = before.vec
  vecDup : after.vecDup = before.vecDup
  intrPend : ∀ i, before.intrPendReg.getLsbD i = true → after.intrPendReg.getLsbD i = true
  excPend : ∀ i, before.excPendReg.getLsbD i = true → after.excPendReg.getLsbD i = true

-- What user mode sees: no cache is invalidated and no write of a guarded register is done.
structure Refused (e : Exceptions) : Prop where
  dCache : e.invalDCache = false
  iCache : e.invalICache = false
  error : e.masterReg.cmd = .wr → e.guarded = true → e.ocpResp = .err

-- No exception is acknowledged, and a return restores user mode.
def StaysUser (s : ExcState) (x : ExcInput) : Prop :=
  x.mem.call = false ∧ (x.mem.ret = true → x.ena = true → s.unit.statusReg.getLsbD 3 = false)

instance (s : ExcState) (x : ExcInput) : Decidable (StaysUser s x) :=
  inferInstanceAs (Decidable (_ ∧ (_ → _ → _)))

theorem user_writes {e : Exceptions} (user : e.superMode = false) (register : BitVec 6) :
    e.writes register = false ∧ e.writesVector = false := by
  simp [writes,writesVector,user]

theorem user_step {s : ExcState} {x : ExcInput} (user : s.unit.superMode = false) (stays : StaysUser s x) :
    Confined s.unit (s.next x).unit := by
  obtain ⟨call,returns⟩ := stays
  have writes := fun register => (user_writes user register).1
  have vector := (user_writes user 0).2
  refine ⟨?_,by simp [writes],by simp [writes,call],
    by simp [writes],by simp [vector],
    by simp [vector],fun i pending => ?_,fun i pending => ?_⟩
  · show ((s.unit.statusNext x.ena x.mem).getLsbD 1) = false
    unfold statusNext
    by_cases returning : (x.mem.ret && x.ena) = true
    · have both := and_eq_true_iff.mp returning
      rw [if_pos returning]
      exact returns both.1 both.2
    · rw [if_neg returning,call,writes]
      exact user
  · simp [intrPend,writes,call,pending]
  · show (s.unit.excPend x.mem).getLsbD i = true
    simp only [excPend,call,false_eq_true,if_false]
    split
    · rw [getLsbD_or,pending,Bool.true_or]
    · exact pending

theorem user_refused {s : ExcState} (path : Reached exceptions s) (user : s.unit.superMode = false) : Refused s.unit := by
  have writes := (user_writes user 5).1
  refine ⟨by rw [Exceptions.invalDCache,writes,Bool.false_and],by rw [Exceptions.invalICache,writes,Bool.false_and],
    fun write guarded => ?_⟩
  have awake : s.unit.wakes = false := by
    by_contra wakes
    simp only [Exceptions.wakes,not_eq_false,and_eq_true] at wakes
    have idle := asleep_idle path wakes.1
    rw [write] at idle
    cases idle
  simp [Exceptions.ocpResp,awake,write,guarded,user]

theorem Confined.trans {e f g : Exceptions} (first : Confined e f) (second : Confined f g) : Confined e g :=
  ⟨second.user,second.mask.trans first.mask,second.source.trans first.source,second.localMode.trans first.localMode,
    second.vec.trans first.vec,second.vecDup.trans first.vecDup,fun i pending => second.intrPend i (first.intrPend i pending),
    fun i pending => second.excPend i (first.excPend i pending)⟩

theorem user_confined {s : ExcState} (path : Reached exceptions s) (user : s.unit.superMode = false) (inputs : List ExcInput)
    (admitted : (exceptions.restrict StaysUser).Admits s inputs) :
    Confined s.unit (exceptions.run s inputs).unit ∧ Refused (exceptions.run s inputs).unit := by
  induction inputs generalizing s with
  | nil =>
    exact ⟨⟨user,rfl,rfl,rfl,rfl,rfl,fun _ pending => pending,fun _ pending => pending⟩,user_refused path user⟩
  | cons x rest ih =>
    obtain ⟨⟨step,stays⟩,later⟩ := admitted
    have first := user_step user stays
    obtain ⟨confined,refused⟩ := ih (.step path step) first.user later
    exact ⟨first.trans confined,refused⟩

def reset : ExcState where
  unit :=
    {masterReg := ⟨.idle,0#32,0#32⟩
     statusReg := 2#32
     maskReg := 0#32
     sourceReg := 0#32
     localModeReg := false
     vec := fun _ => 0#32
     vecDup := fun _ => 0#32
     sleepReg := false
     excPendReg := 0#32
     intrPendReg := 0#32
     intrsReg := 0#16
     excBaseReg := 0#30
     excAddrReg := 0#30
     srcReg := 0#5
     excReg := false
     intrReg := false}
  ack := none
  late := false

theorem reset_reached : Reached exceptions reset := .start ⟨rfl,rfl,rfl,rfl,rfl,rfl,rfl⟩

def noMem : MemExc := ⟨false,false,0#5,false,0#30,0#30⟩
def quietly : ExcInput := ⟨true,noMem,⟨.idle,0#32,0#32⟩,0#16⟩
def writing (addr data : BitVec 32) : ExcInput := {quietly with command := ⟨.wr,addr,data⟩}
def returning : ExcInput := {quietly with mem := {noMem with ret := true}}

def dropped : ExcState := exceptions.run reset [writing 0#32 0#32,quietly]

-- A user that writes the status, the mask and a vector and returns.
def attempts : List ExcInput := [writing 0#32 2#32,writing 4#32 1#32,writing 0x80#32 1#32,returning]

theorem user_confined_attempts :
    Confined dropped.unit (exceptions.run dropped attempts).unit ∧ Refused (exceptions.run dropped attempts).unit :=
  user_confined (reset_reached.run [writing 0#32 0#32,quietly] (by decide)) (by decide) attempts (by decide)

-- A status whose saved mode is the supervisor's, and a return.
theorem user_raised : ∃ s, Reached exceptions s ∧ s.unit.superMode = false ∧ exceptions.admits s returning ∧
    returning.mem.call = false ∧ (s.next returning).unit.superMode = true :=
  reset_reached.visits [writing 0#32 8#32,quietly] (by decide)
end Privilege

section Requests
def Undisturbed (s : ExcState) (x : ExcInput) : Prop :=
  x.mem.call = true → x.mem.exc = false ∧ (x.ena = false → s.unit.requests x.mem.src = false)

instance (s : ExcState) (x : ExcInput) : Decidable (Undisturbed s x) :=
  inferInstanceAs (Decidable (_ → _ ∧ (_ → _)))

structure Acknowledged (s : ExcState) : Prop where
  cleared : ∀ src, s.ack = some src → s.unit.intrPendReg.getLsbD src.toNat = false
  late : s.late = false

theorem bit_get (src : BitVec 5) (i : Nat) (inside : i < 32) : (bit src).getLsbD i = decide (i = src.toNat) := by
  unfold bit
  rw [getLsbD_shiftLeft,getLsbD_one]
  have small := src.isLt
  by_cases same : i = src.toNat
  · simp [same,small]
  · by_cases less : i < src.toNat
    · simp [less,same]
    · simp only [inside,less,same]
      exact decide_eq_false (by omega)

theorem intrPend_get (e : Exceptions) (m : MemExc) (src : BitVec 5) :
    (e.intrPend m).getLsbD src.toNat =
      (e.intrPendReg.getLsbD src.toNat && (!e.writes 2 || e.masterReg.data.getLsbD src.toNat) && !(m.call && m.src == src) ||
        e.requests src) := by
  have small := src.isLt
  have same : decide (src.toNat = m.src.toNat) = (m.src == src) := by
    rw [Bool.eq_iff_iff,decide_eq_true_iff,beq_iff_eq]
    exact ⟨fun equal => (eq_of_toNat_eq equal).symm,fun equal => by rw [equal]⟩
  unfold intrPend requests
  cases e.writes 2 <;> cases m.call <;>
    simp only [getLsbD_or,getLsbD_and,getLsbD_not,bit_get _ _ small,small,same,Bool.false_eq_true,if_true,
      if_false,decide_true,Bool.not_true,Bool.not_false,Bool.true_or,Bool.false_or,Bool.and_true,Bool.true_and,Bool.false_and]

theorem acknowledged (path : Reached (exceptions.restrict Undisturbed) s) : Acknowledged s := by
  refine path.invariant ?_ ?_
  · intro s begun
    obtain ⟨-,-,-,-,-,none,late⟩ := begun
    refine ⟨fun src acks => ?_,late⟩
    rw [none] at acks
    cases acks
  · intro s x before admitted
    obtain ⟨⟨held,-⟩,undisturbed⟩ := admitted
    by_cases stalls : ExcState.stalls x = true
    · have both : x.mem.call = true ∧ x.ena = false := by simpa [ExcState.stalls] using stalls
      obtain ⟨quiet,unlatched⟩ := undisturbed both.1
      have source : x.mem.src = s.source x := by
        cases ack : s.ack with
        | none => simp [ExcState.source,ack]
        | some src => exact (held (by rw [ack]; rfl)).2 quiet
      have unlatched := unlatched both.2
      constructor
      · intro src acks
        have acks : some (s.source x) = some src := by simpa [exceptions,System.restrict,stalls] using acks
        cases acks
        show (s.unit.intrPend x.mem).getLsbD _ = false
        rw [intrPend_get,both.1,← source,unlatched]
        simp
      · show (ExcState.stalls x && (s.late || s.ack.isSome && s.unit.requests (s.source x))) = false
        rw [before.late,← source,unlatched]
        simp
    · constructor
      · intro src acks
        simp [exceptions,System.restrict,stalls] at acks
      · show (ExcState.stalls x && _) = false
        simp [stalls]

theorem requests_kept (path : Reached (exceptions.restrict Undisturbed) s)
    (admitted : (exceptions.restrict Undisturbed).admits s x) :
    (∀ src, s.ack = some src → x.ena = true → (s.late = true ∨ s.unit.requests src = true) →
      (s.next x).unit.intrPendReg.getLsbD src.toNat = true) ∧
    (∀ src : BitVec 5, 16 ≤ src.toNat → s.unit.intrPendReg.getLsbD src.toNat = true →
      (s.next x).unit.intrPendReg.getLsbD src.toNat = false →
      (s.ack = none ∧ x.mem.call = true ∧ x.mem.src = src) ∨
        (s.unit.writes 2 = true ∧ s.unit.masterReg.data.getLsbD src.toNat = false)) := by
  obtain ⟨cleared,late⟩ := acknowledged path
  constructor
  · rintro src - - (before | requests)
    · rw [late] at before
      exact absurd before false_ne_true
    · show (s.unit.intrPend x.mem).getLsbD _ = true
      rw [intrPend_get,requests,Bool.or_true]
  · intro src _ pending gone
    have gone : (s.unit.intrPend x.mem).getLsbD src.toNat = false := gone
    rw [intrPend_get] at gone
    by_cases write : s.unit.writes 2 = true ∧ s.unit.masterReg.data.getLsbD src.toNat = false
    · exact .inr write
    · left
      have acks : x.mem.call = true ∧ x.mem.src = src := by
        cases wrote : s.unit.writes 2 <;> cases data : s.unit.masterReg.data.getLsbD src.toNat <;>
          simp_all
      refine ⟨?_,acks⟩
      cases ack : s.ack with
      | none => rfl
      | some held =>
        have source := (admitted.1.1 (by rw [ack]; rfl)).2 (admitted.2 acks.1).1
        simp only [ExcState.source,ack,Option.getD_some] at source
        rw [cleared src (by rw [ack,← source,acks.2])] at pending
        exact absurd pending false_ne_true

theorem reset_restricted (condition : ExcState → ExcInput → Prop) : Reached (exceptions.restrict condition) reset :=
  .start ⟨rfl,rfl,rfl,rfl,rfl,rfl,rfl⟩

def acking (ena : Bool) (intrs : BitVec 16) : ExcInput := ⟨ena,{noMem with call := true, src := 16#5},⟨.idle,0#32,0#32⟩,intrs⟩

-- A request that arrives in the cycle in which a stalled acknowledgement ends.
def stalledOnce : ExcState := exceptions.run reset [{quietly with intrs := 1#16},quietly,acking false 1#16]

theorem requests_kept_stalled : (stalledOnce.next (acking true 0#16)).unit.intrPendReg.getLsbD 16 = true := by
  have reached := (reset_restricted Undisturbed).run [{quietly with intrs := 1#16},quietly,acking false 1#16] (by decide)
  exact (requests_kept (x := acking true 0#16) reached (by decide)).1 16#5 (by decide) rfl (.inr (by decide))

-- A request that is latched in a stalled cycle of the acknowledgement of its source.
theorem request_lost : ∃ s, Reached exceptions s ∧ exceptions.admits s (acking true 0#16) ∧ s.ack = some 16#5 ∧ s.late = true ∧
    s.unit.intrPendReg.getLsbD 16 = true ∧ s.unit.writes 2#6 = false ∧
    (s.next (acking true 0#16)).unit.intrPendReg.getLsbD 16 = false :=
  reset_reached.visits [acking false 1#16,acking false 0#16] (by decide)

-- The same with an exception in the stalled cycle, whose own source is cleared there.
theorem request_displaced : ∃ s, Reached (exceptions.restrict fun s x => x.mem.call = true → x.ena = false →
      s.unit.requests x.mem.src = false) s ∧ exceptions.admits s (acking true 0#16) ∧ s.ack = some 16#5 ∧ s.late = true ∧
    (s.next (acking true 0#16)).unit.intrPendReg.getLsbD 16 = false :=
  (reset_restricted _).visits [acking false 1#16,
    {quietly with ena := false, mem := {noMem with call := true, exc := true, src := 1#5}}] (by decide)
end Requests
end Patmos.Core
