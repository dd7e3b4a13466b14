import Patmos.TransitionSystem
import Patmos.CacheRefill
namespace Patmos.DirectMapped
open Transition Refill

structure DirectMappedCache where
  refill : Refill
  way : Way

namespace DirectMappedCache
def tagValid (g : Geometry) (c : DirectMappedCache) : Bool := c.way.tagValid g c.refill.masterReg.addr

def miss (g : Geometry) (c : DirectMappedCache) : Bool := !c.tagValid g && c.refill.masterReg.cmd = .rd

def masterS (g : Geometry) (c : DirectMappedCache) : OcpSlaveSignals 4 :=
  c.refill.masterS ⟨if c.tagValid g ∧ c.refill.masterReg.cmd = .rd then .dva else .null,c.way.rdData⟩

def slaveM (g : Geometry) (c : DirectMappedCache) : OcpBurstMasterSignals 4 := c.refill.slaveM g (c.miss g)

def drop (c : DirectMappedCache) (s : OcpBurstSlaveSignals 4) : Bool := c.refill.stateReg = .fill ∧ s.resp = .err

def next (g : Geometry) (c : DirectMappedCache) (m : OcpCoreMasterSignals 4) (s : OcpBurstSlaveSignals 4)
    (invalidate : Bool) : DirectMappedCache where
  refill := c.refill.next g (c.miss g) m s
  way := c.way.next g (c.refill.port g m (c.tagValid g) true (c.miss g) (c.drop s) invalidate)
end DirectMappedCache

-- The cache between the core and the main memory. A write reaches the memory in the cycle in which the cache stores it.
-- An index is failed when a beat of its last fill was an error.
structure State where
  cache : DirectMappedCache
  memory : BurstMemory.State 4
  core : Option Nat
  failed : Nat → Bool

structure Cycle where
  master : OcpCoreMasterSignals 4
  slave : OcpBurstSlaveSignals 4
  invalidate : Bool

def system (g : Geometry) : System State Cycle where
  start s := s.cache.refill.stateReg = .idle ∧ s.cache.refill.burstCntReg = 0 ∧ s.cache.refill.fillReg = false ∧
    s.cache.refill.masterReg.cmd = .idle ∧ (∀ idx, s.cache.way.tagVMem idx = false) ∧ s.memory.phase = .idle ∧
    s.core = none ∧ ∀ idx, s.failed idx = false
  admits s x := Refill.Offers s.core x.master (s.cache.masterS g) ∧ s.memory.Answers (s.cache.slaveM g) x.slave
  next s x := {
    cache := s.cache.next g x.master x.slave x.invalidate
    memory := {s.memory.next g.words (s.cache.slaveM g) x.slave with ram := s.cache.refill.writeThrough s.memory.ram}
    core := coreNext s.core x.master (s.cache.masterS g)
    failed idx :=
      if idx = g.index s.cache.refill.masterReg.addr then s.cache.drop x.slave || s.failed idx && !s.cache.miss g
      else s.failed idx }

structure Correct (g : Geometry) (s : State) : Prop where
  lines : s.cache.refill.stateReg = .idle → s.cache.way.Coherent g s.cache.way.content s.memory.ram
  read : ∀ addr, s.core = some addr → (s.cache.masterS g).resp = .dva → (s.cache.masterS g).data = s.memory.ram (addr/4)
  failed : ∀ idx < g.lines, s.failed idx = true → s.cache.way.tagVMem idx = false

structure Valid (g : Geometry) (s : State) : Prop where
  progress : Refill.Progress g s.memory.ram s.cache.refill s.memory.phase s.core
  way : s.cache.refill.WayValid g s.cache.way s.memory.ram
  failed : ∀ idx < g.lines, s.failed idx = true → s.cache.way.tagVMem idx = false

theorem system_ram (g : Geometry) (s : State) (x : Cycle) :
    ((system g).next s x).memory.ram = s.cache.refill.writeThrough s.memory.ram := rfl

theorem cache_next {g : Geometry} {s : State} (x : Cycle) (missing : s.cache.miss g = miss) : ((system g).next s x).cache =
    ⟨s.cache.refill.next g miss x.master x.slave,s.cache.way.next g
      (s.cache.refill.port g x.master (s.cache.tagValid g) true miss (s.cache.drop x.slave) x.invalidate)⟩ := by
  simp only [system,DirectMappedCache.next,missing]

theorem progress_next {g : Geometry} {s : State} {x : Cycle}
    (progress : Refill.Progress g s.memory.ram s.cache.refill s.memory.phase s.core) (admitted : (system g).admits s x) :
    Refill.Progress g ((system g).next s x).memory.ram ((system g).next s x).cache.refill
      ((system g).next s x).memory.phase ((system g).next s x).core := by
  refine progress_step progress ?_ ?_ admitted.1 admitted.2 fun other => ?_
  · intro missing
    simpa [DirectMappedCache.miss] using (Bool.and_eq_true_iff.1 missing).2
  · by_cases read : s.cache.refill.masterReg.cmd = .rd
    · cases hit : s.cache.tagValid g <;> simp [DirectMappedCache.miss,hit]
    · simp [read]
  · simp [system,writeThrough,other]

section Step
variable {g : Geometry} {s : State} {x : Cycle}

theorem way_next (valid : Valid g s) (admitted : (system g).admits s x) :
    ((system g).next s x).cache.refill.WayValid g ((system g).next s x).cache.way ((system g).next s x).memory.ram := by
  refine way_step valid.progress valid.way rfl (fun missing => ?_) admitted.2 fun arrives error => ?_
  · exact of_decide_eq_true (Bool.and_eq_true_iff.1 missing).2
  · have filling := (of_decide_eq_true arrives).1
    simp [DirectMappedCache.drop,filling,error]

theorem failed_next (failed : ∀ idx < g.lines, s.failed idx = true → s.cache.way.tagVMem idx = false) :
    ∀ idx < g.lines, ((system g).next s x).failed idx = true → ((system g).next s x).cache.way.tagVMem idx = false := by
  intro idx inside marked
  simp only [system,DirectMappedCache.next,Way.next,port] at marked ⊢
  by_cases here : idx = g.index s.cache.refill.masterReg.addr
  · rw [if_pos here] at marked
    cases dropped : s.cache.drop x.slave with
    | true => simp [here]
    | false =>
      simp only [dropped,Bool.false_or,Bool.and_eq_true,Bool.not_eq_true'] at marked
      simpa [marked.2] using fun _ => failed idx inside marked.1
  · rw [if_neg here] at marked
    simpa [here] using fun _ => failed idx inside marked
end Step

section
variable {g : Geometry} {s : State} (valid : Valid g s) (reading : s.core = some addr)

theorem preserves_valid (s : State) (x : Cycle) (valid : Valid g s) (admitted : (system g).admits s x) :
    Valid g ((system g).next s x) :=
  ⟨progress_next valid.progress admitted,way_next valid admitted,failed_next valid.failed⟩

theorem reached_valid (path : Reached (system g) s) : Valid g s := by
  refine path.invariant (fun s begun => ?_) preserves_valid
  obtain ⟨state,count,empty,quiet,invalid,phase,core,failed⟩ := begun
  refine ⟨?_,?_,fun idx _ marked => absurd marked (by simp [failed idx])⟩
  · rw [phase,core]
    exact .start state count empty quiet
  · simp only [Refill.WayValid,state]
    exact ⟨fun idx _ valid => absurd valid (by simp [invalid idx]),absurd quiet⟩

theorem index_fits (short : g.wordBits ≤ 2) (addr : Nat) : g.offset addr % 2^g.missIndexWidth = g.offset addr := by
  refine Nat.mod_eq_of_lt (Nat.lt_of_lt_of_le (g.offset_lt addr) (Nat.pow_le_pow_right (by decide) ?_))
  unfold Geometry.missIndexWidth
  generalize g.wordBits = bits at short
  match bits,short with
  | 0,_ | 1,_ | 2,_ => decide

theorem valid_read (valid : Valid g s) (reading : s.core = some addr)
    (answered : (s.cache.masterS g).resp = .dva) : (s.cache.masterS g).data = s.memory.ram (addr/4) ∨
      s.cache.refill.stateReg = .respond ∧ s.cache.refill.masterReg.addr = addr ∧
      (s.cache.masterS g).data = s.memory.ram (g.base addr + g.offset addr % 2^g.missIndexWidth) := by
  obtain ⟨progress,way,_⟩ := valid
  generalize s.memory.phase = p at progress
  rw [reading] at progress
  have silent (state : s.cache.refill.stateReg ≠ .respond) (quiet : s.cache.refill.masterReg.cmd = .idle) :
      (s.cache.masterS g).resp = .null := by
    simp [DirectMappedCache.masterS,masterS,state,quiet]
  generalize core : some addr = expected at progress
  cases progress with
  | idle state count empty latched =>
    left
    simp only [Refill.WayValid,state] at way
    have read : s.cache.refill.masterReg.cmd = .rd := by
      by_contra other
      simp [other] at core
    have same : s.cache.refill.masterReg.addr = addr := by simpa [read] using core.symm
    subst same
    simp only [DirectMappedCache.masterS,masterS,state] at answered ⊢
    have hit : s.cache.tagValid g = true := by
      by_contra miss
      simp [miss] at answered
    exact (way.2 (by simp [read])).data hit
  | hold state count empty outstanding | fill state inside writing outstanding _ =>
    rw [silent (by simp [state]) outstanding.quiet] at answered
    cases answered
  | respond state count writing target outstanding answer =>
    right
    have same : s.cache.refill.masterReg.addr = addr := by simpa [outstanding.read] using core.symm
    have seen : s.cache.masterS g = s.cache.refill.slaveReg := by simp [DirectMappedCache.masterS,masterS,state]
    rw [seen] at answered ⊢
    refine ⟨state,same,?_⟩
    rw [answer.word answered,outstanding.wanted,same]

theorem short_correct (short : g.wordBits ≤ 2) {s : State} (path : Reached (system g) s) : Correct g s := by
  have valid := reached_valid path
  refine ⟨fun state => ?_,fun addr reading answered => ?_,valid.failed⟩
  · have way := valid.way
    simp only [Refill.WayValid,state] at way
    exact way.1
  · rcases valid_read valid reading answered with word | ⟨_,_,word⟩
    · exact word
    · rw [word,index_fits short,g.base_split]

-- A memory in which the first word of the first line differs from all others, and the address in that line whose index
-- is cut off to that of the first word.
def markedRam : Nat → Word 4 := fun word => if word = 0 then fun _ => 1 else fun _ => 0
def strayAddr (g : Geometry) : Nat := 2^g.missIndexWidth*4

def begin : State where
  cache := ⟨⟨quietMaster,false,0,fun _ => 0,.idle,0,0,⟨.null,fun _ => 0⟩⟩,
    ⟨⟨fun _ => 0,0,false,false,0⟩,fun _ => false,false,fun _ => ⟨fun _ => 0,0,false,false,0⟩⟩⟩
  memory := ⟨markedRam,.idle⟩
  core := none
  failed _ := false

theorem lt_two_pow_pred (long : 3 ≤ n) : n < 2^(n-1) := by
  induction n,long using Nat.le_induction with
  | base => decide
  | succ n long ih =>
    rw [Nat.add_sub_cancel,show n = n-1+1 by omega]
    omega

theorem stray_offset (long : 3 ≤ g.wordBits) :
    g.base (strayAddr g) = 0 ∧ g.offset (strayAddr g) % 2^g.missIndexWidth = 0 := by
  have narrow : g.missIndexWidth < g.wordBits := by
    unfold Geometry.missIndexWidth
    have small := Nat.size_le.2 (lt_two_pow_pred long)
    omega
  have inside : 2^g.missIndexWidth < g.words := Nat.pow_lt_pow_right (by decide) narrow
  unfold Geometry.base Geometry.offset strayAddr
  rw [Nat.mul_div_cancel _ (by decide),Nat.div_eq_of_lt inside,Nat.mod_eq_of_lt inside,Nat.mod_self,Nat.zero_mul]
  exact ⟨rfl,rfl⟩

structure Stage (g : Geometry) (beats : Nat) (s : State) : Prop where
  path : Reached (system g) s
  state : s.cache.refill.stateReg = .fill
  count : s.cache.refill.burstCntReg = beats
  address : s.cache.refill.masterReg.addr = strayAddr g
  ram : s.memory.ram = markedRam
  answered : 0 < beats → s.cache.refill.slaveReg.resp = .dva

theorem progress_facts (valid : Valid g s) :
    (s.cache.refill.stateReg = .fill →
      s.memory.phase = .read (g.base s.cache.refill.masterReg.addr*4) s.cache.refill.burstCntReg ∧
      Refill.Outstanding g s.cache.refill s.core) ∧
    (s.cache.refill.stateReg = .respond →
      Refill.Outstanding g s.cache.refill s.core ∧ Refill.Answer g s.cache.refill s.memory.ram) := by
  have progress := valid.progress
  generalize s.memory.phase = phase at progress
  generalize s.core = core at progress
  cases progress with
  | idle state | hold state => simp [state]
  | fill state _ _ outstanding _ =>
    exact ⟨fun _ => ⟨rfl,outstanding⟩,fun other => absurd (state.symm.trans other) (by decide)⟩
  | respond state _ _ _ outstanding answer =>
    exact ⟨fun other => absurd (state.symm.trans other) (by decide),fun _ => ⟨outstanding,answer⟩⟩
end

theorem stage_begins (g : Geometry) : ∃ s, Stage g 0 s := by
  let request : Cycle := ⟨⟨.rd,strayAddr g,fun _ => 0,fun _ => false⟩,.quiet,false⟩
  let accept : Cycle := ⟨quietMaster,.accept,false⟩
  have start : (system g).start begin := ⟨rfl,rfl,rfl,rfl,fun _ => rfl,rfl,rfl,fun _ => rfl⟩
  have first : Reached (system g) ((system g).next begin request) :=
    .step (.start start) ⟨.inl rfl,rfl,fun _ => rfl⟩
  refine ⟨(system g).next ((system g).next begin request) accept,.step first ⟨.inr (.inr rfl),rfl,fun _ => rfl⟩,rfl,rfl,rfl,rfl,?_⟩
  exact fun early => absurd early (lt_irrefl 0)

theorem stage_beat {g : Geometry} {s : State} (long : 3 ≤ g.wordBits) (stage : Stage g beats s) :
    ∃ s', Reached (system g) s' ∧ s'.memory.ram = markedRam ∧ s'.cache.refill.masterReg.addr = strayAddr g ∧
      s'.cache.refill.slaveReg.resp = .dva ∧
      (beats+1 < g.words → s'.cache.refill.stateReg = .fill ∧ s'.cache.refill.burstCntReg = beats+1) ∧
      (beats+1 = g.words → s'.cache.refill.stateReg = .respond) := by
  obtain ⟨path,state,count,address,ram,answered⟩ := stage
  obtain ⟨phase,outstanding⟩ := (progress_facts (reached_valid path)).1 state
  obtain ⟨beat,dva,data⟩ : ∃ beat : OcpBurstSlaveSignals 4, beat.resp = .dva ∧
      beat.data = s.memory.ram (g.base s.cache.refill.masterReg.addr*4/4+s.cache.refill.burstCntReg) :=
    ⟨⟨.dva,_,false,false⟩,rfl,rfl⟩
  have missing : s.cache.miss g = false := by simp [DirectMappedCache.miss,outstanding.quiet]
  have wanted : s.cache.refill.missIndexReg = 0 := by rw [outstanding.wanted,address,(stray_offset long).2]
  have admitted : (system g).admits s ⟨quietMaster,beat,false⟩ := by
    refine ⟨.inr (.inr rfl),?_⟩
    simp only [BurstMemory.State.Answers,phase]
    exact ⟨by simp [dva],fun _ => data⟩
  have arrives : s.cache.refill.beat beat = true := by simp [Refill.beat,state,dva]
  refine ⟨_,.step path admitted,?_,?_,?_,fun more => ?_,fun last => ?_⟩
  · rw [system_ram,writeThrough,if_neg (by simp [outstanding.quiet]),ram]
  · rw [cache_next _ missing]
    simp [next,state,address]
  · rw [cache_next _ missing]
    by_cases first : beats = 0
    · simp [next,arrives,count,wanted,first,dva]
    · simpa [next,count,wanted,first] using answered (by omega)
  · rw [cache_next _ missing]
    simp only [next,state,arrives,count]
    rw [if_neg (by omega)]
    exact ⟨rfl,Nat.mod_eq_of_lt more⟩
  · rw [cache_next _ missing]
    simp [next,state,arrives,count,← last]

theorem stage_runs {g : Geometry} (long : 3 ≤ g.wordBits) (inside : beats < g.words) : ∃ s, Stage g beats s := by
  induction beats with
  | zero => exact stage_begins g
  | succ beats ih =>
    obtain ⟨s,stage⟩ := ih (by omega)
    obtain ⟨s',path,ram,address,answered,more,_⟩ := stage_beat long stage
    exact ⟨s',path,(more inside).1,(more inside).2,address,ram,fun _ => answered⟩

theorem long_incorrect {g : Geometry} (long : 3 ≤ g.wordBits) : ∃ s, Reached (system g) s ∧ ¬Correct g s := by
  have positive := g.words_pos
  obtain ⟨s,stage⟩ := stage_runs long (Nat.sub_lt positive Nat.one_pos)
  obtain ⟨s',path,ram,address,answered,_,last⟩ := stage_beat long stage
  have state := last (by omega)
  obtain ⟨outstanding,answer⟩ := (progress_facts (reached_valid path)).2 state
  have seen : s'.cache.masterS g = s'.cache.refill.slaveReg := by simp [DirectMappedCache.masterS,masterS,state]
  refine ⟨s',path,fun correct => ?_⟩
  have claimed := correct.read _ outstanding.read (by rw [seen,answered])
  rw [seen,answer.word answered,outstanding.wanted,address,(stray_offset long).1,(stray_offset long).2,ram,strayAddr] at claimed
  have differs := congrFun claimed 0
  simp [markedRam] at differs

theorem direct_mapped_correct_iff (g : Geometry) : (∀ s, Reached (system g) s → Correct g s) ↔ g.wordBits ≤ 2 := by
  constructor
  · intro correct
    by_contra long
    obtain ⟨s,path,incorrect⟩ := @long_incorrect g (by omega)
    exact incorrect (correct s path)
  · exact fun short s path => short_correct short path

theorem eight_words_misread : ¬∀ g s, Reached (system g) s → Correct g s := by
  intro correct
  obtain ⟨s,path,incorrect⟩ := @long_incorrect ⟨4,3⟩ (by decide)
  exact incorrect (correct _ s path)
end Patmos.DirectMapped
