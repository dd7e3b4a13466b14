import Patmos.TransitionSystem
import Patmos.CacheRefill
namespace Patmos.TwoWay
open Transition

-- The first way is way false and the second way true, as in lruMem.
structure TwoWaySetAssociativeCache where
  refill : Refill
  way : Bool → Way
  lruMem : Nat → Bool
  lru : Bool
  lruReg : Bool

namespace TwoWaySetAssociativeCache
def tagValid (g : Geometry) (c : TwoWaySetAssociativeCache) (k : Bool) : Bool :=
  (c.way k).tagValid g c.refill.masterReg.addr

def hit (g : Geometry) (c : TwoWaySetAssociativeCache) : Bool := c.tagValid g false || c.tagValid g true

def miss (g : Geometry) (c : TwoWaySetAssociativeCache) : Bool := !c.hit g && c.refill.masterReg.cmd = .rd

def masterS (g : Geometry) (c : TwoWaySetAssociativeCache) : OcpSlaveSignals 4 :=
  c.refill.masterS ⟨if c.hit g ∧ c.refill.masterReg.cmd = .rd then .dva else .null,
    if c.tagValid g false then (c.way false).rdData else (c.way true).rdData⟩

def slaveM (g : Geometry) (c : TwoWaySetAssociativeCache) : OcpBurstMasterSignals 4 := c.refill.slaveM g (c.miss g)

-- An error drops the way that lru names in the cycle of the error, not lruReg.
def drop (c : TwoWaySetAssociativeCache) (s : OcpBurstSlaveSignals 4) (k : Bool) : Bool :=
  c.refill.stateReg = .fill ∧ s.resp = .err ∧ c.lru = k

def port (g : Geometry) (c : TwoWaySetAssociativeCache) (m : OcpCoreMasterSignals 4) (s : OcpBurstSlaveSignals 4)
    (invalidate : Bool) (k : Bool) : Way.Port :=
  c.refill.port g m (c.tagValid g k) (c.lruReg == k) (c.miss g && c.lru == k) (c.drop s k) invalidate

-- lruMem is read at the line index and written at the word index.
def next (g : Geometry) (c : TwoWaySetAssociativeCache) (m : OcpCoreMasterSignals 4) (s : OcpBurstSlaveSignals 4)
    (invalidate : Bool) : TwoWaySetAssociativeCache where
  refill := c.refill.next g (c.miss g) m s
  way k := (c.way k).next g (c.port g m s invalidate k)
  lruMem cell :=
    if cell = g.cell c.refill.masterReg.addr then
      if c.miss g ∧ s.cmdAccept then !c.lru
      else if c.refill.masterReg.cmd ≠ .idle ∧ c.hit g ∧ c.refill.fillReg = false then c.tagValid g false
      else c.lruMem cell
    else c.lruMem cell
  lru := c.lruMem (g.index m.addr)
  lruReg := if c.miss g then c.lru else c.lruReg
end TwoWaySetAssociativeCache

structure State where
  cache : TwoWaySetAssociativeCache
  memory : BurstMemory.State 4
  core : Option Nat
  failed : Bool → Nat → Bool

structure Cycle where
  master : OcpCoreMasterSignals 4
  slave : OcpBurstSlaveSignals 4
  invalidate : Bool

-- A way has failed at an index when a beat of its last fill there was an error.
def system (g : Geometry) : System State Cycle where
  start s := s.cache.refill.stateReg = .idle ∧ s.cache.refill.burstCntReg = 0 ∧ s.cache.refill.fillReg = false ∧
    s.cache.refill.masterReg.cmd = .idle ∧ (∀ k idx, (s.cache.way k).tagVMem idx = false) ∧ s.memory.phase = .idle ∧
    s.core = none ∧ ∀ k idx, s.failed k idx = false
  admits s x := Refill.Offers s.core x.master (s.cache.masterS g) ∧ s.memory.Answers (s.cache.slaveM g) x.slave
  next s x := {
    cache := s.cache.next g x.master x.slave x.invalidate
    memory := {s.memory.next g.words (s.cache.slaveM g) x.slave with ram := s.cache.refill.writeThrough s.memory.ram}
    core := Refill.coreNext s.core x.master (s.cache.masterS g)
    failed k idx :=
      if idx = g.index s.cache.refill.masterReg.addr then
        s.cache.refill.beat x.slave && x.slave.resp = .err && s.cache.lruReg == k ||
          s.failed k idx && !(s.cache.miss g && s.cache.lru == k)
      else s.failed k idx }

abbrev State.after (g : Geometry) (s : State) (x : Cycle) := (system g).next s x

instance (g : Geometry) (s : State) (x : Cycle) : Decidable ((system g).admits s x) :=
  inferInstanceAs (Decidable (_ ∧ _))

section
variable (g : Geometry) (s : State) (x : Cycle)

-- What the way that is not being filled does in a cycle.
structure Untouched (k : Bool) : Prop where
  content : ((s.after g x).cache.way k).content = (s.cache.way k).content
  tag : ((s.after g x).cache.way k).tagMem.mem = (s.cache.way k).tagMem.mem
  valid : x.invalidate = false → ((s.after g x).cache.way k).tagVMem = (s.cache.way k).tagVMem

structure Correct : Prop where
  distinct : ∀ idx < g.lines, (s.cache.way false).tagVMem idx = true → (s.cache.way true).tagVMem idx = true →
    (s.cache.way false).tagMem.mem idx ≠ (s.cache.way true).tagMem.mem idx
  lines : s.cache.refill.stateReg = .idle → ∀ k, (s.cache.way k).Coherent g (s.cache.way k).content s.memory.ram
  failed : ∀ k, ∀ idx < g.lines, s.failed k idx = true → (s.cache.way k).tagVMem idx = false
  other : s.cache.refill.stateReg ≠ .idle → Untouched g s x (!s.cache.lruReg)

-- An error finds lru still at the way being filled.
def lruKept : Prop := s.cache.refill.stateReg = .fill → x.slave.resp = .err → s.cache.lru = s.cache.lruReg

instance (s : State) (x : Cycle) : Decidable (lruKept s x) := inferInstanceAs (Decidable (_ → _ → _))

structure Valid : Prop where
  progress : Refill.Progress g s.memory.ram s.cache.refill s.memory.phase s.core
  filled : ∀ k, s.cache.refill.stateReg = .idle ∨ k = s.cache.lruReg → s.cache.refill.WayValid g (s.cache.way k) s.memory.ram
  other : s.cache.refill.stateReg ≠ .idle → (s.cache.way (!s.cache.lruReg)).Coherent g
    (s.cache.way (!s.cache.lruReg)).content s.memory.ram
  distinct : ∀ idx < g.lines, (s.cache.way false).tagVMem idx = true → (s.cache.way true).tagVMem idx = true →
    (s.cache.way false).tagMem.mem idx ≠ (s.cache.way true).tagMem.mem idx
  failed : ∀ k, ∀ idx < g.lines, s.failed k idx = true → (s.cache.way k).tagVMem idx = false
end

open TwoWaySetAssociativeCache

attribute [local simp] State.after system port next Refill.port

section Step
variable {g : Geometry} {s : State} {x : Cycle}

theorem miss_read (missing : s.cache.miss g = true) : s.cache.refill.masterReg.cmd = .rd :=
  of_decide_eq_true (Bool.and_eq_true_iff.1 missing).2

section
variable (valid : Valid g s)
include valid

theorem progress_next (admitted : (system g).admits s x) :
    Refill.Progress g (s.after g x).memory.ram (s.after g x).cache.refill
      (s.after g x).memory.phase (s.after g x).core := by
  refine Refill.progress_step valid.progress miss_read ?_ admitted.1 admitted.2 fun other => ?_
  · by_cases read : s.cache.refill.masterReg.cmd = .rd
    · cases hit : s.cache.hit g <;> simp [miss,hit]
    · simp [read]
  · simp [Refill.writeThrough,other]

theorem busy_quiet (busy : s.cache.refill.stateReg ≠ .idle) :
    s.cache.refill.masterReg.cmd = .idle ∧ s.cache.miss g = false := by
  have quiet := valid.progress.quiet busy
  exact ⟨quiet,by simp [miss,quiet]⟩

section
variable (victim : s.cache.refill.stateReg = .idle ∧ (s.cache.miss g = true → k = s.cache.lru) ∨
  s.cache.refill.stateReg ≠ .idle ∧ k = s.cache.lruReg)
include victim

theorem victim_port : s.cache.port g x.master x.slave x.invalidate k =
      s.cache.refill.port g x.master (s.cache.tagValid g k) true (s.cache.miss g) (s.cache.drop x.slave k) x.invalidate := by
  rcases victim with ⟨idle,chosen⟩ | ⟨busy,rfl⟩
  · have empty := valid.progress.empty idle
    cases missing : s.cache.miss g with
    | false => simp [empty,missing]
    | true =>
      rw [chosen missing]
      simp [empty,missing]
  · simp [(busy_quiet valid busy).2]

theorem victim_next (admitted : (system g).admits s x) (kept : lruKept s x) :
    (s.after g x).cache.refill.WayValid g ((s.after g x).cache.way k) (s.after g x).memory.ram := by
  have way := valid.filled k (victim.imp And.left And.right)
  have step := @Refill.way_step g _ _ x.master x.slave (s.cache.tagValid g k) (s.cache.drop x.slave k) x.invalidate
    _ _ _ valid.progress way rfl miss_read admitted.2
  rw [← victim_port valid victim] at step
  refine step fun arrives error => ?_
  have filling : s.cache.refill.stateReg = .fill := (of_decide_eq_true arrives).1
  have chosen : k = s.cache.lruReg := by
    rcases victim with ⟨idle,_⟩ | ⟨_,same⟩
    · exact absurd (filling.symm.trans idle) (by decide)
    · exact same
  simp [drop,filling,error,kept filling error,chosen]
end

section
variable (other : s.cache.refill.stateReg ≠ .idle ∧ k ≠ s.cache.lruReg ∨ s.cache.miss g = true ∧ k ≠ s.cache.lru)
include other

theorem other_quiet : (s.cache.port g x.master x.slave x.invalidate k).allocate = false ∧
      ∀ i, (s.cache.port g x.master x.slave x.invalidate k).wrEna i = false := by
  rcases other with ⟨busy,other⟩ | ⟨missing,other⟩
  · obtain ⟨quiet,still⟩ := busy_quiet valid busy
    simp [Refill.stmsk,quiet,still,other.symm]
  · have read := miss_read missing
    have empty : s.cache.refill.fillReg = false := by
      by_cases idle : s.cache.refill.stateReg = .idle
      · exact valid.progress.empty idle
      · exact absurd (read.symm.trans (busy_quiet valid idle).1) (by decide)
    simp [Refill.stmsk,read,empty,other.symm]

theorem other_survives :
    (s.cache.way k).Survives g (s.cache.port g x.master x.slave x.invalidate k) (s.after g x).memory.ram := by
  obtain ⟨still,quiet⟩ := @other_quiet k g s x valid other
  have coherent : (s.cache.way k).Coherent g (s.cache.way k).content s.memory.ram := by
    by_cases idle : s.cache.refill.stateReg = .idle
    · have way := valid.filled k (.inl idle)
      simp only [Refill.WayValid,idle] at way
      exact way.1
    · rcases other with ⟨_,other⟩ | ⟨missing,_⟩
      · rw [show k = !s.cache.lruReg by cases k <;> cases h : s.cache.lruReg <;> simp_all]
        exact valid.other idle
      · exact absurd ((busy_quiet valid idle).2.symm.trans missing) (by decide)
  have ram : (s.after g x).memory.ram = s.memory.ram := by
    have notWrite : s.cache.refill.masterReg.cmd ≠ .wr := by
      rcases other with ⟨busy,_⟩ | ⟨missing,_⟩
      · simp [(busy_quiet valid busy).1]
      · simp [miss_read missing]
    simp [Refill.writeThrough,notWrite]
  rw [ram]
  exact Way.survives_quiet still quiet coherent
end

theorem filled_next (admitted : (system g).admits s x) (kept : lruKept s x) (k : Bool)
    (victim : (s.after g x).cache.refill.stateReg = .idle ∨ k = (s.after g x).cache.lruReg) :
    (s.after g x).cache.refill.WayValid g ((s.after g x).cache.way k) (s.after g x).memory.ram := by
  by_cases idle : s.cache.refill.stateReg = .idle
  · refine victim_next valid (.inl ⟨idle,fun missing => ?_⟩) admitted kept
    rcases victim with settled | chosen
    · cases accept : x.slave.cmdAccept <;>
        simp [Refill.next,idle,missing,accept] at settled
    · simpa [missing] using chosen
  · have still := (busy_quiet valid idle).2
    by_cases chosen : k = s.cache.lruReg
    · exact victim_next valid (.inr ⟨idle,chosen⟩) admitted kept
    · have settled : (s.after g x).cache.refill.stateReg = .idle :=
        victim.resolve_right (by simpa [still] using chosen)
      have survives := @other_survives k g s x valid (.inl ⟨idle,chosen⟩)
      simp only [State.after,system,next,port,still] at settled survives ⊢
      refine Refill.way_settles settled ?_ survives
      cases state : s.cache.refill.stateReg with
      | idle => exact absurd state idle
      | hold => cases accept : x.slave.cmdAccept <;> simp [Refill.next,state,accept] at settled
      | fill =>
        simp only [Refill.next,state] at settled
        split at settled <;> simp at settled
      | respond => simp

theorem other_next (busy : (s.after g x).cache.refill.stateReg ≠ .idle) :
    ((s.after g x).cache.way (!(s.after g x).cache.lruReg)).Coherent g
      ((s.after g x).cache.way (!(s.after g x).cache.lruReg)).content (s.after g x).memory.ram := by
  have other : s.cache.refill.stateReg ≠ .idle ∧ (!(s.after g x).cache.lruReg) ≠ s.cache.lruReg ∨
      s.cache.miss g = true ∧ (!(s.after g x).cache.lruReg) ≠ s.cache.lru := by
    by_cases idle : s.cache.refill.stateReg = .idle
    · right
      have missing : s.cache.miss g = true := by
        by_contra hit
        simp [Refill.next,idle,hit] at busy
      exact ⟨missing,by simp [missing]⟩
    · exact .inl ⟨idle,by simp [(busy_quiet valid idle).2]⟩
  exact Way.survives_coherent (other_quiet valid other).1 (other_survives valid other)

theorem miss_distinct (missing : s.cache.miss g = true) (k : Bool)
    (held : (s.cache.way k).tagVMem (g.index s.cache.refill.masterReg.addr) = true) :
    (s.cache.way k).tagMem.mem (g.index s.cache.refill.masterReg.addr) ≠ g.tag s.cache.refill.masterReg.addr := by
  have read := miss_read missing
  have idle : s.cache.refill.stateReg = .idle := by
    by_contra busy
    exact absurd (read.symm.trans (busy_quiet valid busy).1) (by decide)
  have way := valid.filled k (.inl idle)
  simp only [Refill.WayValid,idle] at way
  have lookup := way.2 (by simp [read])
  intro same
  have hit : s.cache.tagValid g k = true := lookup.hit.2 ⟨lookup.seen held,same⟩
  cases k <;> simp [TwoWaySetAssociativeCache.miss,TwoWaySetAssociativeCache.hit,hit] at missing
end

theorem tag_next (g : Geometry) (s : State) (x : Cycle) (k : Bool) (idx : Nat) :
    ((s.after g x).cache.way k).tagMem.mem idx =
      if (s.cache.miss g = true ∧ s.cache.lru = k) ∧ idx = g.index s.cache.refill.masterReg.addr
      then g.tag s.cache.refill.masterReg.addr else (s.cache.way k).tagMem.mem idx := by
  simp only [State.after,system,next,Way.tag_next,port,Refill.port,
    Bool.and_eq_true,beq_iff_eq]

theorem valid_before (other : ¬((s.cache.miss g = true ∧ s.cache.lru = k) ∧ idx = g.index s.cache.refill.masterReg.addr))
    (after : ((s.after g x).cache.way k).tagVMem idx = true) : (s.cache.way k).tagVMem idx = true := by
  refine Way.valid_before (fun both => other ?_) after
  simpa using both

theorem distinct_next (valid : Valid g s) : ∀ idx < g.lines, ((s.after g x).cache.way false).tagVMem idx = true →
    ((s.after g x).cache.way true).tagVMem idx = true →
    ((s.after g x).cache.way false).tagMem.mem idx ≠ ((s.after g x).cache.way true).tagMem.mem idx := by
  intro idx inside first second
  rw [tag_next,tag_next]
  by_cases allocated : s.cache.miss g = true ∧ idx = g.index s.cache.refill.masterReg.addr
  · obtain ⟨missing,rfl⟩ := allocated
    cases victim : s.cache.lru with
    | false =>
      have held := valid_before (by simp [victim]) second
      simpa [missing] using (miss_distinct valid missing true held).symm
    | true =>
      have held := valid_before (by simp [victim]) first
      simpa [missing] using miss_distinct valid missing false held
  · have other (k : Bool) : ¬((s.cache.miss g = true ∧ s.cache.lru = k) ∧ idx = g.index s.cache.refill.masterReg.addr) :=
      fun both => allocated ⟨both.1.1,both.2⟩
    rw [if_neg (other false),if_neg (other true)]
    exact valid.distinct idx inside (valid_before (other false) first) (valid_before (other true) second)

theorem failed_next (valid : Valid g s) (kept : lruKept s x) : ∀ k, ∀ idx < g.lines,
    (s.after g x).failed k idx = true → ((s.after g x).cache.way k).tagVMem idx = false := by
  intro k idx inside marked
  by_contra after
  have after : ((s.after g x).cache.way k).tagVMem idx = true := by simpa using after
  have before (old : s.failed k idx = true)
      (other : ¬((s.cache.miss g = true ∧ s.cache.lru = k) ∧ idx = g.index s.cache.refill.masterReg.addr)) : False := by
    have held := valid_before other after
    rw [valid.failed k idx inside old] at held
    cases held
  simp only [State.after,system] at marked
  by_cases here : idx = g.index s.cache.refill.masterReg.addr
  · rw [if_pos here,Bool.or_eq_true] at marked
    rcases marked with error | old
    · simp only [Bool.and_eq_true,decide_eq_true_eq,beq_iff_eq,Refill.beat] at error
      obtain ⟨⟨⟨filling,_⟩,error⟩,chosen⟩ := error
      have dropped : s.cache.drop x.slave k = true := by
        simp [drop,filling,error,kept filling error,chosen]
      simp [Way.next,here,dropped] at after
    · simp only [Bool.and_eq_true,Bool.not_eq_true',Bool.and_eq_false_iff] at old
      refine before old.1 fun both => ?_
      rcases old.2 with hit | other
      · exact absurd (hit.symm.trans both.1.1) (by decide)
      · simp [both.1.2] at other
  · rw [if_neg here] at marked
    exact before marked fun both => here both.2

theorem other_untouched (valid : Valid g s) (kept : lruKept s x) (busy : s.cache.refill.stateReg ≠ .idle) :
    Untouched g s x (!s.cache.lruReg) := by
  obtain ⟨still,quiet⟩ := @other_quiet (!s.cache.lruReg) g s x valid (.inl ⟨busy,by simp⟩)
  have noMiss := (busy_quiet valid busy).2
  refine ⟨Way.content_kept quiet,?_,fun running => ?_⟩
  · funext idx
    rw [tag_next]
    simp [noMiss]
  · have noDrop : s.cache.drop x.slave (!s.cache.lruReg) = false := by
      simp only [drop,decide_eq_false_iff_not]
      rintro ⟨filling,error,chosen⟩
      rw [kept filling error] at chosen
      simp at chosen
    funext idx
    simp [Way.next,running,noDrop,noMiss]
end Step

def lruKeeping (g : Geometry) : System State Cycle := (system g).restrict lruKept

instance (g : Geometry) (s : State) (x : Cycle) : Decidable ((lruKeeping g).admits s x) :=
  inferInstanceAs (Decidable (_ ∧ _))

theorem preserves_valid {g : Geometry} (s : State) (x : Cycle) (valid : Valid g s) (admitted : (lruKeeping g).admits s x) :
    Valid g ((lruKeeping g).next s x) where
  progress := progress_next valid admitted.1
  filled := filled_next valid admitted.1 admitted.2
  other := other_next valid
  distinct := distinct_next valid
  failed := failed_next valid admitted.2

theorem reached_valid {g : Geometry} {s : State} (path : Reached (lruKeeping g) s) : Valid g s := by
  refine path.invariant (fun s begun => ?_) preserves_valid
  obtain ⟨state,count,empty,quiet,invalid,phase,core,failed⟩ := begun
  refine ⟨?_,fun k _ => ?_,absurd state,fun idx _ first => ?_,fun k idx _ marked => ?_⟩
  · rw [phase,core]
    exact .start state count empty quiet
  · simp only [Refill.WayValid,state]
    exact ⟨fun idx _ valid => absurd valid (by simp [invalid k idx]),absurd quiet⟩
  · exact absurd first (by simp [invalid false idx])
  · exact absurd marked (by simp [failed k idx])

theorem two_way_correct (g : Geometry) : ∀ s x, Reached (lruKeeping g) s → (lruKeeping g).admits s x → Correct g s x := by
  intro s x path admitted
  have valid := reached_valid path
  refine ⟨valid.distinct,fun idle k => ?_,valid.failed,other_untouched valid admitted.2⟩
  have way := valid.filled k (.inl idle)
  simp only [Refill.WayValid,idle] at way
  exact way.1

def begin : State where
  cache := ⟨⟨quietMaster,false,0,fun _ => 0,.idle,0,0,⟨.null,fun _ => 0⟩⟩,
    fun _ => ⟨⟨fun _ => 0,0,false,false,0⟩,fun _ => false,false,fun _ => ⟨fun _ => 0,0,false,false,0⟩⟩,fun _ => false,false,false⟩
  memory := ⟨fun _ _ => 0,.idle⟩
  core := none
  failed _ _ := false

theorem begin_starts (g : Geometry) : (system g).start begin :=
  ⟨rfl,rfl,rfl,rfl,fun _ _ => rfl,rfl,rfl,fun _ _ => rfl⟩

-- A read of address 0, with the two beats of its line answered as given.
def readAnswered (first second : OcpResp) : List Cycle :=
  [⟨⟨.rd,0,fun _ => 0,fun _ => false⟩,.quiet,false⟩,⟨quietMaster,.accept,false⟩,
    ⟨quietMaster,.answer first,false⟩,⟨quietMaster,.answer second,false⟩]

theorem two_way_correct_after_error : (lruKeeping ⟨1,1⟩).Admits begin (readAnswered .err .dva) ∧
    Correct ⟨1,1⟩ ((lruKeeping ⟨1,1⟩).run begin (readAnswered .err .dva)) ⟨quietMaster,.quiet,false⟩ := by
  have admitted : (lruKeeping ⟨1,1⟩).Admits begin (readAnswered .err .dva) := by decide +kernel
  have start : (lruKeeping ⟨1,1⟩).start begin := begin_starts ⟨1,1⟩
  exact ⟨admitted,two_way_correct _ _ _ ((Reached.start start).run _ admitted) (by decide +kernel)⟩

-- Accepting the miss has switched lru to the other way when the second beat fails: the line stays valid, with a word
-- that was never read.
theorem late_error_keeps_line : ¬∀ g s x, Reached (system g) s → (system g).admits s x → Correct g s x := by
  intro correct
  have path := (Reached.start (begin_starts ⟨1,1⟩)).run (readAnswered .dva .err) (by decide +kernel)
  have marked := (correct _ _ ⟨quietMaster,.quiet,false⟩ path (by decide +kernel)).failed false 0 (by decide) (by decide +kernel)
  exact absurd marked (by decide +kernel)
end Patmos.TwoWay
