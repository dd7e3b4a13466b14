import Patmos.SpmPoolService
namespace Patmos.SpmPool
open Transition Register PortHistory Allocation CircularPriority

variable {c : Config}

def Config.PowerOfTwo (c : Config) : Prop := ∃ w, c.cores+1 = 2^(w+1)

section Run
variable {s : State c} {x : Cycle c} {i : c.Core}

theorem cur_next (power : c.PowerOfTwo) (turn : s.device.cur < c.cores+1) :
    (s.device.next x).cur = (s.device.cur+1) % (c.cores+1) := by
  obtain ⟨w,size⟩ := power
  have wraps : 2^log2Up (c.cores+1) = c.cores+1 := by rw [size,log2Up_two_pow]
  change (if s.device.cur = c.cores+1 then 0 else (s.device.cur+1) % 2^log2Up (c.cores+1)) = _
  rw [if_neg turn.ne,wraps]

theorem mReg_keeps (P : OcpCoreMasterSignals 4 → Prop) (held : P (s.device.mReg i)) (given : P (x.m i)) :
    P ((s.device.next x).mReg i) := by
  change P (if _ then _ else _)
  split
  case isTrue => exact given
  case isFalse => exact held

theorem rested_step (power : c.PowerOfTwo) (valid : Valid s) (shown : (s.device.next x).respRegs i ≠ .null) :
    (s.device.next x).cur ≠ i := by
  have here : s.device.cur = i := by
    by_contra other
    exact shown (if_neg fun both => other both.1)
  have several := c.several
  have turn := valid.turn
  rw [cur_next power turn]
  rcases Nat.lt_or_ge (s.device.cur+1) (c.cores+1) with more | last
  · rw [Nat.mod_eq_of_lt more]
    omega
  · rw [show s.device.cur+1 = c.cores+1 by omega,Nat.mod_self]
    omega

theorem coreS_start (begun : (system c).start s) (i : c.Core) : (s.device.coreS i).resp = .null := by
  obtain ⟨-,respRegs,-,cmdReg,mReg,-⟩ := begun
  unfold coreS
  rcases (mReg i).2 with control | inside
  · rw [if_pos control]
    exact respRegs i
  · have few := c.few
    rw [if_neg (by omega),dif_pos inside]
    simp [TdmSpm.coreS,cmdReg]

theorem valid_start (begun : (system c).start s) : Valid s := by
  have null := coreS_start begun
  obtain ⟨scheds,respRegs,cur,-,mReg,ports⟩ := begun
  have rested : waiting s.device = fun _ => none := funext fun i => by simp [waiting,(mReg i).1]
  have silent : answering s.device = fun _ => none := funext fun i => by simp [answering,null i]
  refine ⟨by rw [cur]; exact Nat.succ_pos _,fun i => (mReg i).2,fun i busy => absurd (mReg i).1 busy,
    fun i shown => absurd (respRegs i) shown,?_,?_,?_⟩
  · rw [ports]
    exact funext fun j => funext (scheds j)
  · rw [ports]
    exact .nil
  · rw [ports,rested,silent]
    exact .empty

theorem valid_step (power : c.PowerOfTwo) (valid : Valid s) (admitted : ((system c).restrict Proper).admits s x) :
    Valid ((system c).next s x) where
  turn := by
    change (s.device.next x).cur < _
    rw [cur_next power valid.turn]
    exact Nat.mod_lt _ (Nat.succ_pos _)
  selects i := mReg_keeps (Selects c) (valid.selects i) (admitted.2.selects i)
  indexed i := mReg_keeps (Indexed c) (valid.indexed i) (admitted.1 i).2
  rested _ := rested_step power valid
  stored := stored_step valid admitted.1 admitted.2
  answers := answers_step valid admitted.2
  orderly := orderly_step valid admitted.1 admitted.2

theorem reached_valid (power : c.PowerOfTwo) (path : Reached ((system c).restrict Proper) s) : Valid s :=
  path.invariant (fun _ => valid_start) (fun _ _ => valid_step power)

theorem valid_faithful (valid : Valid s) : Faithful s where
  stored := valid.stored
  answers := valid.answers
  exclusive _ _ _ _ _ _ split := (answers_sound valid.answers).released split
  orderly := valid.orderly

theorem distance_up {n a b : Nat} (above : a ≤ b) (inside : b < n) : distance n a b = b-a := by
  rw [distance,show b+n-a = b-a+n by omega,Nat.add_mod_right,Nat.mod_eq_of_lt (by omega)]

theorem distance_round_up {n a b : Nat} (below : b < a) (inside : a < n) : distance n a b = b+n-a :=
  Nat.mod_eq_of_lt (by omega)

theorem arbiter_nearer (sched : Fin (cores+1) → Bool) (cur i : Fin (cores+1)) (member : sched i = true) (other : cur ≠ i) :
    distance (cores+1) (TdmSpm.roundRobinArbiter sched cur) i < distance (cores+1) cur i := by
  have inside := i.isLt
  have here := cur.isLt
  unfold TdmSpm.roundRobinArbiter
  split
  case isTrue some =>
    obtain ⟨j,high⟩ := some
    obtain ⟨found,before⟩ := encode_first cores (TdmSpm.hi sched cur) high
    have width := (encode cores (TdmSpm.hi sched cur)).isLt
    generalize encode cores (TdmSpm.hi sched cur) = k at *
    simp only [TdmSpm.hi,Bool.and_eq_true,decide_eq_true_eq] at found
    rcases Nat.lt_or_ge cur.val i.val with above | below
    · have upper : k.val ≤ i.val := by
        by_contra later
        have missed := before i (Fin.lt_def.mpr (Nat.lt_of_not_le later))
        simp [TdmSpm.hi,member,Fin.lt_def,above] at missed
      rw [distance_up upper inside,distance_up above.le inside]
      omega
    · rw [distance_round_up (by omega) width,distance_round_up (by omega) here]
      omega
  case isFalse none =>
    have below : i.val < cur.val := by
      by_contra above
      exact none ⟨i,by rw [TdmSpm.hi,member,Bool.true_and,decide_eq_true_iff]; omega⟩
    have low : TdmSpm.lo sched cur i = true := by simp [TdmSpm.lo,member,Fin.le_def,below.le]
    obtain ⟨-,before⟩ := encode_first cores (TdmSpm.lo sched cur) low
    generalize encode cores (TdmSpm.lo sched cur) = k at *
    have upper : k.val ≤ i.val := by
      by_contra later
      have missed := before i (Fin.lt_def.mpr (Nat.lt_of_not_le later))
      rw [low] at missed
      cases missed
    rw [distance_up upper inside,distance_round_up below here]
    omega

-- The turns that pass before the command of core i is taken.
def rank (d : SpmPool c) (i : c.Core) : Nat :=
  if inside : spmsel (d.mReg i).addr < c.spmcnt then distance (c.cores+1) (d.spms ⟨_,inside⟩).curReg i
  else distance (c.cores+1) d.cur i

theorem rank_step (power : c.PowerOfTwo) (valid : Valid s) (proper : Proper s x) (silent : (x.m i).cmd = .idle)
    (null : (s.device.coreS i).resp = .null) (busy : (s.device.mReg i).cmd ≠ .idle)
    (uncontrolled : controls s.device x i = false) (unfetched : fetches s.device x i = false) :
    rank (s.device.next x) i < rank s.device i := by
  have held : s.device.m x i = s.device.mReg i := if_pos silent
  have old : fresh s.device x i = true := decide_eq_true (.inr null)
  have kept : (s.device.next x).mReg i = s.device.mReg i := (mReg_fresh old).trans held
  have few := c.few
  rcases valid.selects i with control | inside
  · have beyond : ¬spmsel (s.device.mReg i).addr < c.spmcnt := by omega
    have other : s.device.cur ≠ i := fun here => by
      have taking : controls s.device x i = true := decide_eq_true ⟨here,by rw [held,select_here control]; exact busy⟩
      rw [uncontrolled] at taking
      cases taking
    have nearer := distance_step valid.turn i.isLt other
    unfold rank
    rw [dif_neg (by rw [kept]; exact beyond),dif_neg beyond,cur_next power valid.turn]
    omega
  · have other : (s.device.spms ⟨_,inside⟩).curReg ≠ i := fun here => by
      have taking := (fetches_iff ⟨_,inside⟩ (congrArg (fun o => spmsel o.addr) held) old).mpr ⟨by rw [held]; exact busy,here⟩
      rw [unfetched] at taking
      cases taking
    have member := proper.scheduled i (by rw [held]; exact busy) ⟨_,inside⟩ (congrArg (fun o => spmsel o.addr) held)
    have nearer := arbiter_nearer _ _ i member other
    unfold rank
    simp only [kept,dif_pos inside]
    exact nearer

theorem answer_step (power : c.PowerOfTwo) (i : c.Core) (path : Reached ((system c).restrict Proper) s)
    (admitted : ((system c).restrict Proper).admits s x) (pending : (waiting s.device i).isSome = true) :
    (answering ((system c).next s x).device i).isSome = true ∨
    (waiting ((system c).next s x).device i).isSome = true ∧ rank ((system c).next s x).device i < rank s.device i := by
  have valid := reached_valid power path
  have proper := admitted.2
  have shown : (((system c).next s x).device.coreS i).resp = _ := resp_next (i := i) valid proper
  obtain ⟨busy,null⟩ : (s.device.mReg i).cmd ≠ .idle ∧ (s.device.coreS i).resp = .null := by
    unfold waiting at pending
    split at pending
    case isTrue both => exact both
    case isFalse => cases pending
  have silent : (x.m i).cmd = .idle := by
    by_contra issuing
    have rested := valid.orderly.ready ((admitted.1 i).1 issuing)
    simp [waiting,busy,null] at rested
  by_cases taken : controls s.device x i = true ∨ fetches s.device x i = true
  · left
    simp [answering,shown,taken]
  · right
    obtain ⟨uncontrolled,unfetched⟩ : controls s.device x i = false ∧ fetches s.device x i = false := by simpa using taken
    have kept : ((system c).next s x).device.mReg i = s.device.mReg i :=
      (mReg_fresh (decide_eq_true (.inr null))).trans (if_pos silent)
    exact ⟨by simp [waiting,shown,uncontrolled,unfetched,kept,busy],
      rank_step power valid proper silent null busy uncontrolled unfetched⟩
end Run

theorem spm_pool_faithful (power : c.PowerOfTwo) {s : State c} (path : Reached ((system c).restrict Proper) s) :
    Faithful s ∧ Answered ((system c).restrict Proper) s := by
  refine ⟨valid_faithful (reached_valid power path),fun inputs follows i pending => ?_⟩
  obtain ⟨t,-,answered⟩ := Reached.answered (fun s => (answering s.device i).isSome = true)
    (fun s => rank s.device i) (fun _ _ => answer_step power i) path follows pending
  exact ⟨t,answered⟩

theorem Config.cores_pos (c : Config) : 0 < c.cores+1 := Nat.succ_pos _

def initial (c : Config) : State c where
  device := ⟨fun _ => ⟨⟨0,c.cores_pos⟩,⟨0,c.cores_pos⟩,.idle,⟨fun _ _ => 0#8,fun _ => 0#8⟩⟩,fun _ _ => false,fun _ => .null,
    fun _ _ => 0#8,fun _ => ⟨.idle,0xF000,fun _ => 0#8,fun _ => false⟩,0,fun _ => ⟨.null,fun _ => 0#8⟩⟩
  ports := .empty

theorem initial_starts (c : Config) : (system c).start (initial c) :=
  ⟨fun _ _ => rfl,fun _ => rfl,rfl,fun _ => rfl,fun _ => ⟨rfl,.inl (show spmsel 0xF000 = spmcntmax by decide)⟩,rfl⟩

instance (m : OcpCoreMasterSignals 4) : Decidable (Indexed c m) := inferInstanceAs (Decidable (_ → _ → _ ∨ _))
instance (m : OcpCoreMasterSignals 4) : Decidable (Selects c m) := inferInstanceAs (Decidable (_ ∨ _))

instance (s : State c) (x : Cycle c) : Decidable ((system c).admits s x) :=
  inferInstanceAs (Decidable (∀ i, ((x.m i).cmd ≠ .idle → s.ports.Ready (answering s.device) i) ∧ Indexed c (x.m i)))

instance (s : State c) (x : Cycle c) : Decidable (Proper s x) :=
  decidable_of_iff ((∀ i, Selects c (x.m i)) ∧
      ((s.device.curio x).cmd ≠ .idle → schedsel (s.device.curio x).addr = spmcntmax → ∃ j, s.device.avails j = true) ∧
      ((s.device.curio x).cmd ≠ .idle → schedsel (s.device.curio x).addr ≠ spmcntmax → (s.device.curio x).cmd = .wr) ∧
      (∀ i, (s.device.m x i).cmd ≠ .idle → ∀ j : Fin c.spmcnt, spmsel (s.device.m x i).addr = j → s.device.spmscheds j i = true) ∧
      ∀ i, (x.m i).cmd = .idle → (s.device.coreS i).resp ≠ .null → ∀ j : Fin c.spmcnt,
        spmsel (s.device.mReg i).addr = j → (s.device.spms j).curReg = i → spmsel (x.m i).addr ≠ j)
    ⟨fun ⟨a,b,d,e,f⟩ => ⟨a,b,d,e,f⟩,fun p => ⟨p.selects,p.requests,p.writes,p.scheduled,p.leaves⟩⟩

def issue (first second : OcpCmd × Nat) : Cycle c where
  m i := if i.val = 0 then ⟨first.1,first.2,fun _ => 0,fun _ => true⟩ else ⟨second.1,second.2,fun _ => 0,fun _ => true⟩
  undefined _ _ := 0
  stray := ⟨.idle,0,fun _ => 0,fun _ => false⟩
  strayResp := .null
  beyond _ := ⟨.null,fun _ => 0⟩

def pause : Cycle c := issue (.idle,0xF000) (.idle,0xF000)

def pair (spmcnt : Nat) (present : 1 ≤ spmcnt) (few : spmcnt ≤ spmcntmax) : Config :=
  ⟨1,spmcnt,1024,by decide,present,few,by decide⟩

def two : Config := pair 2 (by decide) (by decide)

-- Both cores request an SPM. Core 0 uses its own and gives it back, and core 1 gets it.
def handover : List (Cycle two) :=
  [issue (.rd,0xF03C) (.rd,0xF03C),issue (.wr,0x0000) (.idle,0xF000),pause,pause,issue (.wr,0xF000) (.idle,0xF000),
    issue (.idle,0xF000) (.rd,0xF03C),pause]

theorem spm_pool_faithful_handover :
    let s := (system two).run (initial two) handover
    s.ports.history.map (fun a => (a.port.val,a.command.addr,slotOf two a.result)) =
        [(0,0xF03C,some ⟨0,by decide⟩),(1,0xF03C,some ⟨1,by decide⟩),(0,0x0000,some ⟨0,by decide⟩),
          (0,0xF000,some ⟨0,by decide⟩),(1,0xF03C,some ⟨0,by decide⟩)] ∧
      Faithful s ∧ Answered ((system two).restrict Proper) s := by
  have path : Reached ((system two).restrict Proper) (((system two).restrict Proper).run (initial two) handover) :=
    (Reached.start (m := (system two).restrict Proper) (initial_starts two)).run handover (by decide +kernel)
  exact ⟨by decide +kernel,spm_pool_faithful ⟨0,rfl⟩ path⟩

def one : Config := pair 1 (by decide) (by decide)

-- Core 0 takes the only SPM and requests another one, reads its schedule, or writes to it and leaves the address in
-- place.
def exhausted : List (Cycle one) := [issue (.rd,0xF03C) (.idle,0xF000),pause,issue (.rd,0xF03C) (.idle,0xF000)]
def inspected : List (Cycle one) := [issue (.rd,0xF03C) (.idle,0xF000),pause,issue (.rd,0xF000) (.idle,0xF000)]
def lingering : List (Cycle one) :=
  [issue (.rd,0xF03C) (.idle,0xF000),issue (.wr,0x0000) (.idle,0xF000),pause,issue (.idle,0x0000) (.idle,0xF000)]

theorem pool_misanswers :
    (∃ s, Reached (system one) s ∧ s.ports.history.map (fun a => slotOf one a.result) = [some ⟨0,by decide⟩,some ⟨0,by decide⟩] ∧
      ¬Faithful s) ∧
    (∃ s, Reached (system one) s ∧ (∃ i, s.device.spmscheds ⟨0,by decide⟩ i = true) ∧
      (s.ports.history.map Access.result).getLast? = some (wordOf 0) ∧ ¬Faithful s) ∧
    ∃ s, Reached (system one) s ∧ (s.ports.commands ⟨0,by decide⟩).length = 2 ∧
      (s.ports.results ⟨0,by decide⟩ ++ (answering s.device ⟨0,by decide⟩).toList).length = 3 ∧ ¬Faithful s := by
  have reaches (inputs : List (Cycle one)) (admitted : (system one).Admits (initial one) inputs) :=
    (Reached.start (m := system one) (initial_starts one)).run inputs admitted
  refine ⟨⟨_,reaches exhausted (by decide +kernel),by decide +kernel,fun faithful => ?_⟩,
    ⟨_,reaches inspected (by decide +kernel),by decide +kernel,by decide +kernel,fun faithful => ?_⟩,
    ⟨_,reaches lingering (by decide +kernel),by decide +kernel,by decide +kernel,fun faithful => ?_⟩⟩
  · have twice : ((system one).run (initial one) exhausted).ports.history.filterMap op =
        [] ++ .take ⟨0,by decide⟩ ⟨0,by decide⟩ :: ([] ++ .take ⟨0,by decide⟩ ⟨0,by decide⟩ :: []) := by rfl
    obtain ⟨_,none,_⟩ := faithful.exclusive _ _ _ _ _ _ twice
    cases none
  · have read := (faithful.answers [_] _ [] rfl).read ⟨0,by decide⟩ (by decide +kernel) (by decide +kernel) (by decide +kernel)
    exact absurd (congrFun read ⟨0,by decide⟩) (by decide +kernel)
  · have counted := congrArg List.length (faithful.orderly.answered ⟨0,by decide⟩)
    exact absurd counted (by decide +kernel)
end Patmos.SpmPool
