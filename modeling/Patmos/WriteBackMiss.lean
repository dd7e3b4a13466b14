import Patmos.DirectMappedCacheWriteBack
namespace Patmos.DirectMappedWriteBack
open Transition BurstMemory Function Geometry

-- The tag under which a line is held that memory does not have.
def owner (c : DirectMappedCacheWriteBack) (idx : Nat) : Option Nat := if c.dirtyMem idx then some (c.way.tagMem.mem idx) else none

def request (c : DirectMappedCacheWriteBack) : Request :=
  if c.doingRead then .read c.masterReg.addr else .write c.masterReg.addr c.coreWrDataReg c.coreByteEnReg

def pending (c : DirectMappedCacheWriteBack) : Nat → Word 4 := overlay c.way.content c.fillReg c.wrAddrReg c.wrDataReg

def Backed (g : Geometry) (newer : Nat → Option Nat) (ram spec : Nat → Word 4) : Prop :=
  ∀ tag, ∀ idx < g.lines, newer idx ≠ some tag → ∀ off < g.words, ram (g.block tag idx + off) = spec (g.block tag idx + off)

theorem backed_more {g : Geometry} {ram spec : Nat → Word 4} {newer newer' : Nat → Option Nat} (backed : Backed g newer ram spec)
    (more : ∀ idx, newer idx = newer' idx ∨ newer idx = none) : Backed g newer' ram spec := by
  intro tag idx inside other off fits
  refine backed tag idx inside (fun held => ?_) off fits
  rcases more idx with same | none
  · exact other (same ▸ held)
  · cases none.symm.trans held

theorem backed_store {g : Geometry} {ram spec : Nat → Word 4} (backed : Backed g newer ram spec) (data : Word 4) (byteEn : ByteEn 4)
    (held : newer (g.index addr) = some (g.tag addr)) : Backed g newer ram (store spec addr data byteEn) := by
  intro tag idx inside other off fits
  rw [store_elsewhere g spec addr data byteEn inside fits]
  · exact backed tag idx inside other off fits
  · rintro ⟨rfl,rfl⟩
    exact other held

theorem backed_beat {g : Geometry} {ram ram' spec : Nat → Word 4} (backed : Backed g newer ram spec) (inside : idx < g.lines)
    (held : newer idx = some old) (fits : beat < g.words) (kept : ∀ word, word ≠ g.block old idx + beat → ram' word = ram word) :
    Backed g newer ram' spec := by
  intro tag idx' inside' other off fits'
  rw [kept]
  · exact backed tag idx' inside' other off fits'
  · intro equal
    obtain ⟨rfl,rfl,_⟩ := g.block_injective inside' inside fits' fits equal
    exact other held

theorem backed_done {g : Geometry} {ram spec : Nat → Word 4} (backed : Backed g (update newer idx (some old)) ram spec)
    (written : ∀ off < g.words, ram (g.block old idx + off) = spec (g.block old idx + off)) :
    Backed g (update newer idx none) ram spec := by
  intro tag idx' inside other off fits
  by_cases here : idx' = idx
  · subst here
    by_cases same : tag = old
    · subst same
      exact written off fits
    · exact backed tag idx' inside (by simpa using fun equal => same equal.symm) off fits
  · refine backed tag idx' inside ?_ off fits
    rw [update_of_ne here] at other ⊢
    exact other

open DirectMappedCacheWriteBack

section
variable (g : Geometry) (s : State) (spec : Nat → Word 4) (beats : Nat)

structure Settled : Prop where
  count : s.cache.burstCntReg = 0
  drained : s.cache.rdAddrCntReg = 0
  empty : s.cache.fillReg = false
  idle : s.memory.phase = .idle
  core : s.core = Request.of s.cache.masterReg
  latched : s.cache.masterReg.cmd ≠ .idle →
    s.cache.wrAddrReg = g.cell s.cache.masterReg.addr ∧ s.cache.wrDataReg = s.cache.masterReg.data
  sure : s.cache.masterReg.cmd ≠ .idle → s.failed = false
  fresh : s.cache.masterReg.cmd ≠ .idle → s.cache.way.tagV = s.cache.way.tagVMem (g.index s.cache.masterReg.addr)
  dirty : s.cache.masterReg.cmd ≠ .idle → s.cache.dirty = s.cache.dirtyMem (g.index s.cache.masterReg.addr)
  coherent : s.cache.way.Coherent g s.cache.way.content spec
  lookup : s.cache.masterReg.cmd ≠ .idle → s.cache.way.Lookup g spec s.cache.masterReg.addr
  backed : Backed g (owner s.cache) s.memory.ram spec

structure Missing : Prop where
  quiet : s.cache.masterReg.cmd = .idle
  core : s.core = some (request s.cache)
  wanted : s.cache.missIndexReg = g.offset s.cache.masterReg.addr
  sure : s.cache.doingRead = false → s.failed = false
  marked : s.cache.dirtyMem (g.index s.cache.masterReg.addr) = !s.cache.doingRead

-- The old line on its way to memory. Its tag is gone from the tag memory.
structure Draining (old : Nat) : Prop where
  inside : s.cache.burstCntReg < g.words
  ahead : s.cache.rdAddrCntReg = (s.cache.burstCntReg+1) % g.words
  empty : s.cache.fillReg = false
  phase : s.memory.phase = if s.cache.burstCntReg = 0 then .idle
    else .write (g.block old (g.index s.cache.masterReg.addr)*4) s.cache.burstCntReg
  address : s.cache.memWrAddrReg = g.block old (g.index s.cache.masterReg.addr)*4
  word : s.cache.way.rdData = s.cache.way.content (g.index s.cache.masterReg.addr*g.words+s.cache.burstCntReg)
  line : g.Line s.cache.way.content old spec (g.index s.cache.masterReg.addr)
  backed : Backed g (update (owner s.cache) (g.index s.cache.masterReg.addr) (some old)) s.memory.ram spec
  written : ∀ off < s.cache.burstCntReg, s.memory.ram (g.block old (g.index s.cache.masterReg.addr) + off) =
    spec (g.block old (g.index s.cache.masterReg.addr) + off)

def Lines : Prop := s.cache.way.Filling g (pending s.cache) s.cache.masterReg.addr ((request s.cache).apply spec) beats

structure Fetching : Prop where
  drained : s.cache.rdAddrCntReg = 0
  backed : Backed g (update (owner s.cache) (g.index s.cache.masterReg.addr) none) s.memory.ram spec
  lines : Lines g s spec beats

structure Answer : Prop where
  given : s.cache.slaveReg.resp ≠ .null
  word : s.cache.doingRead = true → s.cache.slaveReg.resp = .dva → s.cache.slaveReg.data = spec (s.cache.masterReg.addr/4)
end

inductive Stage (g : Geometry) (s : State) (spec : Nat → Word 4) : WriteBackState → Prop where
  | idle : Settled g s spec → Stage g s spec .idle
  | write : Missing g s → Draining g s spec old → Lines g s spec 0 → Stage g s spec .write
  | writeWaitForResp : Missing g s → s.memory.phase = .ack → s.cache.burstCntReg = 0 → s.cache.fillReg = false →
      Fetching g s spec 0 → Stage g s spec .writeWaitForResp
  | hold : Missing g s → s.memory.phase = .idle → s.cache.burstCntReg = 0 → Fetching g s spec 0 → Stage g s spec .hold
  | fill : Missing g s → s.memory.phase = .read (g.base s.cache.masterReg.addr*4) s.cache.burstCntReg →
      s.cache.burstCntReg < g.words → Fetching g s spec s.cache.burstCntReg →
      (s.cache.missIndexReg < s.cache.burstCntReg → Answer s spec) → Stage g s spec .fill
  | respond : Missing g s → s.memory.phase = .idle → s.cache.burstCntReg = 0 → Fetching g s spec g.words → Answer s spec →
      Stage g s spec .respond

def Staged (g : Geometry) (s : State) (spec : Nat → Word 4) : Prop := Stage g s spec s.cache.stateReg

structure Valid (g : Geometry) (s : State) (spec : Nat → Word 4) : Prop where
  certain : s.candidates = fun word i => [spec word i]
  dirtyValid : ∀ idx < g.lines, s.cache.dirtyMem idx = true → s.cache.way.tagVMem idx = true
  stage : Stage g s spec s.cache.stateReg

-- A write-back beat is taken in the cycle in which it is offered, no burst of a write fails, and the index of the
-- missed word fits its register.
structure Undisturbed (g : Geometry) (s : State) (x : Cycle) : Prop where
  taken : s.cache.stateReg = .write → x.slave.dataAccept = true
  drains : s.cache.stateReg = .writeWaitForResp → x.slave.resp ≠ .err
  fills : s.cache.stateReg = .fill → s.cache.doingRead = false → x.slave.resp ≠ .err
  fits : s.cache.miss g = true → g.offset s.cache.masterReg.addr < 2^g.missIndexWidth

instance (g : Geometry) (s : State) (x : Cycle) : Decidable (Undisturbed g s x) :=
  decidable_of_iff ((s.cache.stateReg = .write → x.slave.dataAccept = true) ∧
      (s.cache.stateReg = .writeWaitForResp → x.slave.resp ≠ .err) ∧
      (s.cache.stateReg = .fill → s.cache.doingRead = false → x.slave.resp ≠ .err) ∧
      (s.cache.miss g = true → g.offset s.cache.masterReg.addr < 2^g.missIndexWidth))
    ⟨fun ⟨taken,drains,fills,fits⟩ => ⟨taken,drains,fills,fits⟩,fun ⟨taken,drains,fills,fits⟩ => ⟨taken,drains,fills,fits⟩⟩

abbrev State.line (g : Geometry) (s : State) : Nat := g.index s.cache.masterReg.addr

attribute [local simp] State.after system next

section Step
variable {g : Geometry} {s : State} {x : Cycle} {spec : Nat → Word 4}

section
variable (quiet : s.cache.masterReg.cmd = .idle)
include quiet

theorem quiet_still : s.cache.miss g = false ∧ s.cache.marks g = false ∧ ∀ i, s.cache.stmsk i = false := by
  simp [miss,marks,stmsk,quiet]

theorem busy_silent (busy : s.cache.busy = true) : (s.cache.masterS g).resp = .null := by
  have notRespond : s.cache.stateReg ≠ .respond := (of_decide_eq_true busy).2
  simp [masterS,notRespond,quiet]

theorem busy_kept (busy : s.cache.busy = true) : (s.after g x).cache.masterReg.addr = s.cache.masterReg.addr ∧
    request (s.after g x).cache = request s.cache ∧ (s.after g x).cache.missIndexReg = s.cache.missIndexReg ∧
    owner (s.after g x).cache = owner s.cache := by
  obtain ⟨noMiss,noMark,_⟩ := @quiet_still g s quiet
  have address : (s.after g x).cache.masterReg.addr = s.cache.masterReg.addr := by
    simp [busy]
  refine ⟨address,?_,?_,?_⟩
  · rw [request,address]
    simp [noMiss,request]
  · simp [noMiss]
  · funext idx
    simp [owner,noMiss,noMark,Way.tag_next,port]
end

theorem offers_quiet (offers : Offers core m ans) (pending : core = some r) (silent : ans.resp = .null) :
    m.cmd = .idle ∧ coreNext core m ans = core := by
  have quiet := (offers.resolve_left (by simp [pending])).resolve_left fun given => given silent
  exact ⟨quiet,by simp [coreNext,Request.of,quiet,silent]⟩

theorem missing_next (missing : Missing g s) (admitted : (system g).admits s x) (busy : s.cache.busy = true)
    (calm : s.cache.doingRead = false → x.slave.resp ≠ .err) : Missing g (s.after g x) := by
  obtain ⟨noMiss,noMark,_⟩ := @quiet_still g s missing.quiet
  obtain ⟨address,same,index,_⟩ := @busy_kept g s x missing.quiet busy
  obtain ⟨quiet,core⟩ := offers_quiet admitted.1 missing.core (busy_silent missing.quiet busy)
  have reading : (s.after g x).cache.doingRead = s.cache.doingRead := by
    simp [noMiss]
  refine ⟨quiet,?_,?_,fun write => ?_,?_⟩
  · rw [same,← missing.core]
    exact core
  · rw [index,address,missing.wanted]
  · rw [reading] at write
    simp [missing.sure write,calm write]
  · rw [address,reading,← missing.marked]
    simp [noMiss,noMark]

theorem busy_content (quiet : s.cache.masterReg.cmd = .idle) : (s.after g x).cache.way.content = pending s.cache := by
  obtain ⟨_,_,mask⟩ := @quiet_still g s quiet
  exact Way.content_overlay fun i => by simp [port,mask]

theorem lines_next (missing : Missing g s) (busy : s.cache.busy = true) (lines : Lines g s spec beats)
    (inside : s.cache.beat x.slave = true → beats < g.words ∧ s.cache.burstCntReg = beats)
    (good : s.cache.beat x.slave = true → x.slave.resp ≠ .err →
      s.cache.comb x.slave = (request s.cache).apply spec (g.base s.cache.masterReg.addr + beats)) :
    Lines g (s.after g x) spec (if s.cache.beat x.slave then beats+1 else beats) := by
  obtain ⟨noMiss,_,_⟩ := @quiet_still g s missing.quiet
  obtain ⟨address,same,_⟩ := @busy_kept g s x missing.quiet busy
  have latched : pending (s.after g x).cache = overlay (pending s.cache) (s.cache.beat x.slave)
      (s.line g*g.words+beats) (s.cache.comb x.slave) := by
    rw [pending,busy_content missing.quiet]
    cases arrives : s.cache.beat x.slave with
    | false =>
      have empty : (s.after g x).cache.fillReg = false := arrives
      rw [empty,overlay_none,overlay_none]
    | true =>
      have filling : s.cache.stateReg = .fill := (of_decide_eq_true arrives).1
      have count := (inside arrives).2
      simp [arrives,filling,count]
  unfold Lines
  rw [address,same,latched]
  refine Way.filling_next (p := s.cache.port g x.master x.slave false) lines noMiss _ _ (fun arrives => (inside arrives).1) fun arrives => ?_
  by_cases error : x.slave.resp = .err
  · left
    simp [port,(of_decide_eq_true arrives).1,error]
  · exact .inr (good arrives error)

theorem lines_wait (missing : Missing g s) (busy : s.cache.busy = true) (other : s.cache.stateReg ≠ .fill)
    (lines : Lines g s spec beats) : Lines g (s.after g x) spec beats := by
  have none : s.cache.beat x.slave = false := by simp [beat,other]
  have step := @lines_next g s x spec beats missing busy lines (by simp [none]) (by simp [none])
  simpa [none] using step

theorem wrBackAddr_exact (several : 0 < g.wordBits) (address : s.cache.memWrAddrReg = g.block old idx*4) :
    s.cache.wrBackAddr g = g.block old idx*4 := by
  have low : 2^(Register.log2Up g.words+2) = g.words*4 := by
    obtain ⟨bits,more⟩ : ∃ bits, g.wordBits = bits+1 := ⟨g.wordBits-1,by omega⟩
    rw [words,more,Register.log2Up_two_pow,Nat.pow_add]
  have whole : g.block old idx*4 = (old*g.lines+idx)*(g.words*4) := by rw [block,Nat.mul_assoc]
  rw [wrBackAddr,address,low,whole]
  rw [Nat.mul_div_cancel _ (Nat.mul_pos g.words_pos (by decide))]

-- The beat on the bus is the one the data memory was asked for in the cycle before, and it is taken.
theorem beat_written (several : 0 < g.wordBits) (draining : Draining g s spec old) (state : s.cache.stateReg = .write)
    (taken : x.slave.dataAccept = true) (answers : s.memory.Answers (s.cache.slaveM g) x.slave) :
    x.slave.resp = .null ∧ (s.after g x).memory =
      ⟨update s.memory.ram (g.block old (s.line g) + s.cache.burstCntReg) s.cache.way.rdData,
        afterBeat g.words (g.block old (s.line g)*4) (s.cache.burstCntReg+1)⟩ := by
  have address := wrBackAddr_exact several draining.address
  have target : (s.cache.slaveM g).addr = g.block old (s.line g)*4 := by
    simp [slaveM,state,address]
  have stored : store s.memory.ram (g.block old (s.line g)*4 + s.cache.burstCntReg*4)
      (s.cache.slaveM g).data (s.cache.slaveM g).dataByteEn = update s.memory.ram
      (g.block old (s.line g) + s.cache.burstCntReg) s.cache.way.rdData := by
    rw [store,← Nat.add_mul]
    simp [slaveM,state]
  rw [← stored]
  have phase := draining.phase
  by_cases first : s.cache.burstCntReg = 0
  · rw [if_pos first] at phase
    have command : (s.cache.slaveM g).cmd = .wr := by simp [slaveM,state,first]
    simp only [BurstMemory.State.Answers,phase] at answers
    exact ⟨answers.1,next_written g.words (.inl ⟨phase,command,target,by rw [← answers.2 command,taken],first⟩)⟩
  · rw [if_neg first] at phase
    simp only [BurstMemory.State.Answers,phase] at answers
    exact ⟨answers,next_written g.words (.inr ⟨phase,taken,by simp [slaveM,state]⟩)⟩

theorem drain_step (several : 0 < g.wordBits) (missing : Missing g s) (draining : Draining g s spec old) (lines : Lines g s spec 0)
    (state : s.cache.stateReg = .write) (admitted : (system g).admits s x) (taken : x.slave.dataAccept = true) :
    Staged g (s.after g x) spec := by
  obtain ⟨noMiss,_,_⟩ := @quiet_still g s missing.quiet
  have busy : s.cache.busy = true := by simp [busy,state]
  obtain ⟨silent,memory⟩ := beat_written several draining state taken admitted.2
  obtain ⟨address,_,_,same⟩ := @busy_kept g s x missing.quiet busy
  have missing' := @missing_next g s x missing admitted busy fun _ => by simp [silent]
  have lines' := @lines_wait g s x spec 0 missing busy (by simp [state]) lines
  have empty : (s.after g x).cache.fillReg = false := by
    simp [beat,state]
  have count : (s.after g x).cache.burstCntReg = (s.cache.burstCntReg+1) % g.words := by
    simp [state,taken]
  have inside := draining.inside
  have ram (w : Nat) : (s.after g x).memory.ram w =
      if w = g.block old (s.line g) + s.cache.burstCntReg then s.cache.way.rdData else s.memory.ram w := by
    rw [memory]
    exact update_apply _ _ _ _
  have backed : Backed g (update (owner s.cache) (s.line g) (some old))
      (s.after g x).memory.ram spec :=
    backed_beat draining.backed (g.index_lt _) (update_self _ _ _) inside fun w other => by rw [ram,if_neg other]
  have written : ∀ off < s.cache.burstCntReg+1, (s.after g x).memory.ram (g.block old (s.line g) + off) =
      spec (g.block old (s.line g) + off) := by
    intro off early
    rw [ram]
    by_cases newest : off = s.cache.burstCntReg
    · rw [if_pos (by rw [newest]),draining.word,draining.line _ inside,newest]
    · rw [if_neg (by omega),draining.written off (by omega)]
  by_cases last : s.cache.burstCntReg+1 = g.words
  · have final : s.cache.burstCntReg = g.words-1 := by omega
    have waits : (s.after g x).cache.stateReg = .writeWaitForResp := by
      simp [state,final,silent]
    have fresh : (s.after g x).cache.rdAddrCntReg = 0 := by
      have ahead := draining.ahead
      rw [last] at ahead
      simp [state,final,ahead]
    rw [Staged,waits]
    refine .writeWaitForResp missing' ?_ (by rw [count,last,Nat.mod_self]) empty ⟨fresh,?_,lines'⟩
    · rw [memory,afterBeat,if_pos last]
    · rw [same,address]
      exact backed_done backed (last ▸ written)
  · have wraps : (s.cache.burstCntReg+1) % g.words = s.cache.burstCntReg+1 := Nat.mod_eq_of_lt (by omega)
    have notFinal : s.cache.burstCntReg ≠ g.words-1 := by omega
    have stays : (s.after g x).cache.stateReg = .write := by
      simp [state,notFinal,noMiss]
    have content : (s.after g x).cache.way.content = s.cache.way.content := by
      rw [busy_content missing.quiet,pending,draining.empty,overlay_none]
    have reads : (s.cache.port g x.master x.slave false).rdAddr = s.line g*g.words+(s.cache.burstCntReg+1) := by
      simp [port,selWrBack,state,draining.ahead,wraps]
    have draining' : Draining g (s.after g x) spec old := by
      refine ⟨by omega,?_,empty,?_,?_,?_,?_,?_,?_⟩
      · simp [state,notFinal,taken,draining.ahead]
      · rw [memory,count,wraps,afterBeat,if_neg last,address]
        simp
      · rw [address]
        simpa [noMiss] using draining.address
      · rw [count,wraps,address,← reads]
        exact Way.rdData_next g s.cache.way _
      · rw [content,address]
        exact draining.line
      · rw [same,address]
        exact backed
      · rw [count,wraps,address]
        exact written
    rw [Staged,stays]
    exact .write missing' draining' lines'

theorem fetching_next (missing : Missing g s) (busy : s.cache.busy = true) (other : s.cache.stateReg ≠ .write)
    (fetching : Fetching g s spec beats) (ram : (s.after g x).memory.ram = s.memory.ram)
    (lines : Lines g (s.after g x) spec beats') : Fetching g (s.after g x) spec beats' := by
  obtain ⟨noMiss,_,_⟩ := @quiet_still g s missing.quiet
  obtain ⟨address,_,_,same⟩ := @busy_kept g s x missing.quiet busy
  refine ⟨?_,?_,lines⟩
  · simpa [noMiss,other] using fetching.drained
  · rw [same,address,ram]
    exact fetching.backed

theorem wait_step (missing : Missing g s) (phase : s.memory.phase = .ack) (count : s.cache.burstCntReg = 0)
    (fetching : Fetching g s spec 0) (state : s.cache.stateReg = .writeWaitForResp)
    (admitted : (system g).admits s x) (drains : x.slave.resp ≠ .err) :
    Staged g (s.after g x) spec := by
  have busy : s.cache.busy = true := by simp [busy,state]
  have missing' := @missing_next g s x missing admitted busy fun _ => drains
  have lines' := @lines_wait g s x spec 0 missing busy (by simp [state]) fetching.lines
  have memory : (s.after g x).memory = if x.slave.resp = .null then s.memory else {s.memory with phase := .idle} := by
    simp [BurstMemory.State.next,phase]
  have ram : (s.after g x).memory.ram = s.memory.ram := by
    rw [memory]
    split <;> rfl
  have fetching' := fetching_next missing busy (by simp [state]) fetching ram lines'
  have count' : (s.after g x).cache.burstCntReg = 0 := by
    simp [beat,state,count]
  have answers := admitted.2
  simp only [BurstMemory.State.Answers,phase] at answers
  by_cases silent : x.slave.resp = .null
  · have stays : (s.after g x).cache.stateReg = .writeWaitForResp := by
      simp [state,silent]
    rw [Staged,stays]
    refine .writeWaitForResp missing' (by rw [memory,if_pos silent,phase]) count' ?_ fetching'
    simp [beat,state]
  · have moves : (s.after g x).cache.stateReg = .hold := by
      simp [state,OcpResp.eq_dva silent answers drains]
    rw [Staged,moves]
    exact .hold missing' (by rw [memory,if_neg silent]) count' fetching'

theorem requested (missing : Missing g (s.after g x)) (fetching : Fetching g (s.after g x) spec 0)
    (count : (s.after g x).cache.burstCntReg = 0)
    (memory : (s.after g x).memory.phase =
      if x.slave.cmdAccept then .read (g.base (s.after g x).cache.masterReg.addr*4) 0 else .idle)
    (state : (s.after g x).cache.stateReg = if x.slave.cmdAccept then .fill else .hold) :
    Staged g (s.after g x) spec := by
  rw [Staged,state]
  cases accept : x.slave.cmdAccept with
  | false => exact .hold missing (by simpa [accept] using memory) count fetching
  | true =>
    refine .fill missing (by simpa [accept,count,-system] using memory) (count ▸ g.words_pos) (count ▸ fetching) fun early => ?_
    rw [count] at early
    exact absurd early (Nat.not_lt_zero _)

theorem hold_step (missing : Missing g s) (phase : s.memory.phase = .idle) (count : s.cache.burstCntReg = 0)
    (fetching : Fetching g s spec 0) (state : s.cache.stateReg = .hold) (admitted : (system g).admits s x) :
    Staged g (s.after g x) spec := by
  have busy : s.cache.busy = true := by simp [busy,state]
  obtain ⟨address,_,_,_⟩ := @busy_kept g s x missing.quiet busy
  have answers := admitted.2
  simp only [BurstMemory.State.Answers,phase] at answers
  have missing' := @missing_next g s x missing admitted busy fun _ => by simp [answers.1]
  have lines' := @lines_wait g s x spec 0 missing busy (by simp [state]) fetching.lines
  have command : (s.cache.slaveM g).cmd = .rd := by simp [slaveM,state]
  have memory : (s.after g x).memory = _ := next_requested g.words x.slave phase command
  have fetching' := fetching_next missing busy (by simp [state]) fetching (by rw [memory]) lines'
  refine requested missing' fetching' ?_ ?_ ?_
  · simp [beat,state,count]
  · rw [memory,address]
    simp [slaveM,state]
  · simp [state]

theorem request_word (missing : Missing g s) (b : Nat) : (request s.cache).apply spec (g.base s.cache.masterReg.addr + b) =
    if b = s.cache.missIndexReg ∧ ¬s.cache.doingRead then
      merge (spec (g.base s.cache.masterReg.addr + b)) s.cache.coreWrDataReg s.cache.coreByteEnReg
    else spec (g.base s.cache.masterReg.addr + b) := by
  cases reading : s.cache.doingRead with
  | true => simp [request,reading,Request.apply]
  | false => simp [request,reading,Request.apply,store_apply,← g.base_split,missing.wanted]

theorem fetched_word (fetching : Fetching g s spec beats) (inside : b < g.words) :
    s.memory.ram (g.base s.cache.masterReg.addr + b) = spec (g.base s.cache.masterReg.addr + b) := by
  rw [g.base_block]
  exact fetching.backed _ _ (g.index_lt _) (by simp) b inside

theorem fill_step (missing : Missing g s) (phase : s.memory.phase = .read (g.base s.cache.masterReg.addr*4) s.cache.burstCntReg)
    (inside : s.cache.burstCntReg < g.words) (fetching : Fetching g s spec s.cache.burstCntReg)
    (answered : s.cache.missIndexReg < s.cache.burstCntReg → Answer s spec) (state : s.cache.stateReg = .fill)
    (admitted : (system g).admits s x) (fills : s.cache.doingRead = false → x.slave.resp ≠ .err) :
    Staged g (s.after g x) spec := by
  have busy : s.cache.busy = true := by simp [busy,state]
  obtain ⟨noMiss,_,_⟩ := @quiet_still g s missing.quiet
  obtain ⟨address,_,index,_⟩ := @busy_kept g s x missing.quiet busy
  have missing' := @missing_next g s x missing admitted busy fills
  have answers := admitted.2
  simp only [BurstMemory.State.Answers,phase,Nat.mul_div_cancel _ (show 0 < 4 by decide)] at answers
  have word (good : x.slave.resp = .dva) : x.slave.data = spec (g.base s.cache.masterReg.addr + s.cache.burstCntReg) := by
    rw [answers.2 good,fetched_word fetching inside]
  have lines' := @lines_next g s x spec _ missing busy fetching.lines (fun _ => ⟨inside,rfl⟩) fun arrives notError => by
    rw [request_word missing,comb,word (OcpResp.eq_dva (of_decide_eq_true arrives).2 answers.1 notError)]
  have memory : (s.after g x).memory = _ := next_beat g.words (s.cache.slaveM g) x.slave phase
  have fetching' := fetching_next missing busy (by simp [state]) fetching (by rw [memory]) lines'
  have reading : (s.after g x).cache.doingRead = s.cache.doingRead := by
    simp [noMiss]
  have keeps (kept : (s.after g x).cache.slaveReg = s.cache.slaveReg) (answer : Answer s spec) : Answer (s.after g x) spec := by
    refine ⟨?_,?_⟩
    · rw [kept]
      exact answer.given
    · rw [kept,reading,address]
      exact answer.word
  by_cases silent : x.slave.resp = .null
  · have still : s.cache.beat x.slave = false := by simp [beat,silent]
    have count : (s.after g x).cache.burstCntReg = s.cache.burstCntReg := by
      simp [still,state]
    have stays : (s.after g x).cache.stateReg = .fill := by
      simp [still,state,noMiss]
    rw [Staged,stays]
    refine .fill missing' ?_ (count ▸ inside) ?_ fun early => ?_
    · rw [memory,count,address,if_pos silent]
    · simpa [still,count,-system] using fetching'
    · rw [index,count] at early
      exact keeps (by simp [still,state]) (answered early)
  · have arrives : s.cache.beat x.slave = true := by simp [beat,state,silent]
    have answer (early : s.cache.missIndexReg < s.cache.burstCntReg+1) : Answer (s.after g x) spec := by
      by_cases here : s.cache.burstCntReg = s.cache.missIndexReg
      · have latched : (s.after g x).cache.slaveReg = ⟨x.slave.resp,x.slave.data⟩ := by
          simp [arrives,here]
        refine ⟨by rw [latched]; exact silent,fun _ good => ?_⟩
        rw [latched] at good ⊢
        rw [address,← g.base_split,← missing.wanted,← here]
        exact word good
      · exact keeps (by simp [state,here]) (answered (by omega))
    have count : (s.after g x).cache.burstCntReg = (s.cache.burstCntReg+1) % g.words := by
      simp [arrives]
    by_cases last : s.cache.burstCntReg+1 = g.words
    · have final : s.cache.burstCntReg = g.words-1 := by omega
      have done : (s.after g x).cache.stateReg = .respond := by
        simp [state,arrives,final]
      rw [Staged,done]
      refine .respond missing' ?_ (by rw [count,last,Nat.mod_self]) ?_ (answer ?_)
      · rw [memory,if_neg silent,if_pos last]
      · simpa [arrives,last] using fetching'
      · rw [missing.wanted,last]
        exact g.offset_lt _
    · have wraps : (s.cache.burstCntReg+1) % g.words = s.cache.burstCntReg+1 := Nat.mod_eq_of_lt (by omega)
      have notFinal : s.cache.burstCntReg ≠ g.words-1 := by omega
      have stays : (s.after g x).cache.stateReg = .fill := by
        simp [state,notFinal,noMiss]
      rw [Staged,stays]
      refine .fill missing' ?_ (by omega) ?_ fun early => answer ?_
      · rw [memory,count,wraps,address,if_neg silent,if_neg last]
      · simpa [arrives,wraps] using fetching'
      · rwa [index,count,wraps] at early
end Step
end Patmos.DirectMappedWriteBack
