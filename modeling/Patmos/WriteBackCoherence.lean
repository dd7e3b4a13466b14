import Patmos.WriteBackMiss
namespace Patmos.DirectMappedWriteBack
open Transition DirectMappedCacheWriteBack BurstMemory Function

attribute [local simp] State.after system next

section Step
variable {g : Geometry} {s : State} {x : Cycle} {spec : Nat → Word 4}

def written (g : Geometry) (s : State) (spec : Nat → Word 4) : Nat → Word 4 :=
  match s.core with
  | none => spec
  | some request => if (s.cache.masterS g).resp = .null then spec else request.apply spec

theorem owner_next (noMiss : s.cache.miss g = false) (idx : Nat) : owner (s.after g x).cache idx =
    if idx = s.line g ∧ s.cache.marks g then some (s.cache.way.tagMem.mem idx) else owner s.cache idx := by
  have tag : (s.after g x).cache.way.tagMem.mem idx = s.cache.way.tagMem.mem idx := by
    simp [Way.tag_next,port,noMiss]
  have dirty : (s.after g x).cache.dirtyMem idx =
      (decide (idx = s.line g) && s.cache.marks g || s.cache.dirtyMem idx) := by
    by_cases here : idx = s.line g <;>
      simp [noMiss,here]
  rw [owner,tag,dirty]
  by_cases marked : idx = s.line g ∧ s.cache.marks g
  · simp [marked]
  · have none : (decide (idx = s.line g) && s.cache.marks g) = false := by simpa using marked
    rw [if_neg marked,none,Bool.false_or,owner]

theorem settled_next (noMiss : s.cache.miss g = false) (rests : s.cache.busy = false) (count : s.cache.burstCntReg = 0)
    (drained : s.cache.rdAddrCntReg = 0) (phase : s.memory.phase = .idle)
    (ended : s.core = none ∨ (s.cache.masterS g).resp ≠ .null)
    (survives : s.cache.way.Survives g (s.cache.port g x.master x.slave false) spec)
    (backed : Backed g (owner (s.after g x).cache) s.memory.ram spec) :
    Staged g (s.after g x) spec := by
  have state : s.cache.stateReg = .idle ∨ s.cache.stateReg = .respond := by
    simp only [busy] at rests
    cases state : s.cache.stateReg <;> simp_all
  have other : s.cache.stateReg ≠ .write ∧ s.cache.stateReg ≠ .fill ∧ s.cache.stateReg ≠ .hold := by
    rcases state with state | state <;> simp [state]
  have none : s.cache.beat x.slave = false := by simp [beat,other.2.1]
  have quiet : (s.cache.slaveM g).cmd = .idle := by simp [slaveM,other,noMiss]
  have memory : (s.after g x).memory = s.memory := next_unused g.words x.slave phase quiet
  have latched : (s.after g x).cache.masterReg = x.master := by
    simp [noMiss,rests]
  have idle : (s.after g x).cache.stateReg = .idle := by
    rcases state with state | state <;> simp [state,noMiss]
  have reads : (s.cache.port g x.master x.slave false).rdAddr = g.cell x.master.addr := by
    simp [port,selWrBack,noMiss,other]
  rw [Staged,idle]
  refine .idle ⟨?_,?_,none,by rw [memory,phase],?_,fun _ => ?_,fun busy => ?_,fun _ => ?_,fun _ => ?_,?_,fun _ => ?_,?_⟩
  · simp [none,other,count]
  · simp [noMiss,other,drained]
  · have empty : (if (s.cache.masterS g).resp = .null then s.core else Option.none) = Option.none := by
      rcases ended with ended | ended <;> simp [ended]
    rw [latched]
    simp [coreNext,empty]
  · rw [latched]
    simp [none,other]
  · rw [latched] at busy
    simp [busy]
  · rw [latched]
    simp [Way.next,port,noMiss,other]
  · rw [latched]
    by_cases here : g.index x.master.addr = s.line g <;>
      simp [noMiss,here]
  · exact Way.survives_coherent noMiss survives
  · rw [latched]
    exact Way.survives_lookup noMiss reads survives
  · rw [memory]
    exact backed

theorem respond_step (missing : Missing g s) (phase : s.memory.phase = .idle) (count : s.cache.burstCntReg = 0)
    (fetching : Fetching g s spec g.words) (answer : Answer s spec) (state : s.cache.stateReg = .respond) :
    Staged g (s.after g x) (written g s spec) := by
  obtain ⟨noMiss,noMark,_⟩ := @quiet_still g s missing.quiet
  have given : (s.cache.masterS g).resp ≠ .null := by
    simpa [masterS,state] using answer.given
  have view : written g s spec = (request s.cache).apply spec := by simp [written,missing.core,given]
  have same : owner (s.after g x).cache = owner s.cache := by
    funext idx
    rw [owner_next noMiss,if_neg (by simp [noMark])]
  rw [view]
  refine settled_next noMiss (by simp [busy,state]) count fetching.drained phase (.inr given) ?_ ?_
  · exact Way.filling_done fetching.lines noMiss (busy_content missing.quiet)
  · have backed : Backed g (owner s.cache) s.memory.ram spec := by
      refine backed_more fetching.backed fun idx => ?_
      by_cases here : idx = s.line g
      · exact .inr (by rw [here,update_self])
      · exact .inl (update_of_ne here _ _)
    rw [same]
    cases reading : s.cache.doingRead with
    | true =>
      simp only [request,reading]
      exact backed
    | false =>
      have held : owner s.cache (s.line g) = some (g.tag s.cache.masterReg.addr) := by
        rw [owner,missing.marked,fetching.lines.tag]
        simp [reading]
      simp only [request,reading]
      exact backed_store backed _ _ held

theorem store_none (ram : Nat → Word 4) (addr : Nat) (data : Word 4) {byteEn : ByteEn 4} (none : ∀ i, byteEn i = false) :
    store ram addr data byteEn = ram := by
  rw [show byteEn = fun _ => false from funext none,store,merge_none,update_eq_self]

theorem hit_written (settled : Settled g s spec) (state : s.cache.stateReg = .idle) (noMiss : s.cache.miss g = false) :
    (s.core = none ∨ (s.cache.masterS g).resp ≠ .null) ∧ written g s spec = if s.cache.masterReg.cmd = .wr
      then store spec s.cache.masterReg.addr s.cache.wrDataReg s.cache.masterReg.byteEn else spec := by
  by_cases quiet : s.cache.masterReg.cmd = .idle
  · have empty : s.core = none := by rw [settled.core,Request.of,quiet]
    exact ⟨.inl empty,by simp [written,empty,quiet]⟩
  · have hit : s.cache.tagValid g = true := by simpa [miss,quiet] using noMiss
    have given : (s.cache.masterS g).resp ≠ .null := by simp [masterS,state,hit,quiet]
    refine ⟨.inr given,?_⟩
    rw [(settled.latched quiet).2]
    cases command : s.cache.masterReg.cmd with
    | idle => exact absurd command quiet
    | rd => simp [written,settled.core,Request.of,command,Request.apply]
    | wr => simp [written,settled.core,Request.of,command,given,Request.apply]

theorem hit_backed (settled : Settled g s spec) (noMiss : s.cache.miss g = false) (write : s.cache.masterReg.cmd = .wr) (data : Word 4) :
    Backed g (owner (s.after g x).cache) s.memory.ram
      (store spec s.cache.masterReg.addr data s.cache.masterReg.byteEn) := by
  have busy : s.cache.masterReg.cmd ≠ .idle := by simp [write]
  have hit : s.cache.tagValid g = true := by simpa [miss,busy] using noMiss
  have tag := ((settled.lookup busy).hit.1 hit).2
  have dirty (idx : Nat) := @owner_next g s x noMiss idx
  by_cases marked : s.cache.marks g = true
  · have held : owner (s.after g x).cache (s.line g) = some (g.tag s.cache.masterReg.addr) := by
      rw [dirty,if_pos ⟨rfl,marked⟩,tag]
    refine backed_store (fun t idx inside other off fits => settled.backed t idx inside (fun before => other ?_) off fits) _ _ held
    rw [dirty]
    split
    · rw [owner] at before
      split at before
      · exact before
      · cases before
    · exact before
  · have none : ∀ i, s.cache.masterReg.byteEn i = false := by
      simpa [marks,stmsk,hit,write] using marked
    rw [store_none spec _ data none]
    exact backed_more settled.backed fun idx => .inl (by rw [dirty,if_neg fun both => marked both.2])

theorem hit_step (settled : Settled g s spec) (state : s.cache.stateReg = .idle) (noMiss : s.cache.miss g = false) :
    Staged g (s.after g x) (written g s spec) := by
  obtain ⟨ended,stored⟩ := hit_written settled state noMiss
  have rests : s.cache.busy = false := by simp [busy,state]
  rw [stored]
  by_cases write : s.cache.masterReg.cmd = .wr
  · have busy : s.cache.masterReg.cmd ≠ .idle := by simp [write]
    rw [if_pos write]
    refine settled_next noMiss rests settled.count settled.drained settled.idle ended ?_ (hit_backed settled noMiss write _)
    refine Way.survives_store noMiss settled.coherent (settled.lookup busy) _ (settled.latched busy).1 ?_
    simp [port,stmsk,tagValid,settled.empty,write]
  · have quiet (i : Fin 4) : s.cache.stmsk i = false := by simp [stmsk,write]
    rw [if_neg write]
    refine settled_next noMiss rests settled.count settled.drained settled.idle ended ?_ ?_
    · exact Way.survives_quiet noMiss (fun i => by simp [port,settled.empty,quiet]) settled.coherent
    · exact backed_more settled.backed fun idx => .inl (by rw [owner_next noMiss,if_neg (by simp [marks,quiet])])

theorem miss_facts (missing : s.cache.miss g = true) : s.cache.masterReg.cmd ≠ .idle ∧ s.cache.tagValid g = false := by
  simpa [miss,and_comm] using missing

theorem miss_silent (missing : s.cache.miss g = true) (state : s.cache.stateReg = .idle) : (s.cache.masterS g).resp = .null := by
  simp [masterS,state,miss_facts missing]

section
variable (settled : Settled g s spec) (missing : s.cache.miss g = true)
include settled missing

theorem miss_request : s.core = some (request (s.after g x).cache) := by
  have busy := (miss_facts missing).1
  rw [settled.core]
  cases command : s.cache.masterReg.cmd with
  | idle => exact absurd command busy
  | rd | wr => simp [Request.of,request,command,missing]

theorem miss_missing (state : s.cache.stateReg = .idle) (admitted : (system g).admits s x) (fits : g.offset s.cache.masterReg.addr < 2^g.missIndexWidth) :
    Missing g (s.after g x) := by
  obtain ⟨busy,_⟩ := miss_facts missing
  have outstanding := @miss_request g s x spec settled missing
  obtain ⟨quiet,core⟩ := offers_quiet admitted.1 outstanding (miss_silent missing state)
  have answers := admitted.2
  simp only [BurstMemory.State.Answers,settled.idle] at answers
  refine ⟨quiet,?_,?_,fun _ => ?_,?_⟩
  · rw [← outstanding]
    exact core
  · simp [missing,Nat.mod_eq_of_lt fits]
  · simp [settled.sure busy,answers.1]
  · cases command : s.cache.masterReg.cmd with
    | idle => exact absurd command busy
    | rd | wr => simp [missing,command]

theorem miss_content : (s.after g x).cache.way.content = s.cache.way.content :=
  Way.content_kept fun i => by simp [port,settled.empty,miss_facts missing]

theorem miss_coherent (data : Word 4) (byteEn : ByteEn 4) :
    s.cache.way.Coherent g s.cache.way.content (store spec s.cache.masterReg.addr data byteEn) := by
  obtain ⟨busy,noHit⟩ := miss_facts missing
  intro idx inside valid off fits
  rw [Geometry.store_elsewhere g spec s.cache.masterReg.addr data byteEn inside fits]
  · exact settled.coherent idx inside valid off fits
  · rintro ⟨same,rfl⟩
    have hit := (settled.lookup busy).hit.2 ⟨(settled.lookup busy).seen valid,same⟩
    rw [tagValid,hit] at noHit
    cases noHit

theorem miss_lines (state : s.cache.stateReg = .idle) : Lines g (s.after g x) spec 0 := by
  have address : (s.after g x).cache.masterReg.addr = s.cache.masterReg.addr := by
    simp [missing]
  have kept : pending (s.after g x).cache = s.cache.way.content := by
    have empty : (s.after g x).cache.fillReg = false := by
      simp [beat,state]
    rw [pending,empty,Geometry.overlay_none,miss_content settled missing]
  have coherent : s.cache.way.Coherent g s.cache.way.content ((request (s.after g x).cache).apply spec) := by
    rw [request,address]
    split
    · exact settled.coherent
    · exact miss_coherent settled missing _ _
  unfold Lines
  rw [address,kept]
  exact Way.filling_begins (p := s.cache.port g x.master x.slave false) coherent missing
end

theorem miss_owner (old : Option Nat) :
    update (owner (s.after g x).cache) (s.line g) old =
      update (owner s.cache) (s.line g) old := by
  funext idx
  by_cases here : idx = s.line g
  · simp [here]
  · simp [owner,here,Way.tag_next,port]

theorem miss_step (settled : Settled g s spec) (state : s.cache.stateReg = .idle) (missing : s.cache.miss g = true)
    (dirtyValid : ∀ idx < g.lines, s.cache.dirtyMem idx = true → s.cache.way.tagVMem idx = true)
    (admitted : (system g).admits s x) (fits : g.offset s.cache.masterReg.addr < 2^g.missIndexWidth) :
    Staged g (s.after g x) spec := by
  obtain ⟨busy,noHit⟩ := miss_facts missing
  have missing' := @miss_missing g s x spec settled missing state admitted fits
  have lines' := @miss_lines g s x spec settled missing state
  have address : (s.after g x).cache.masterReg.addr = s.cache.masterReg.addr := by
    simp [missing]
  have count : (s.after g x).cache.burstCntReg = 0 := by
    simp [beat,state,settled.count]
  have empty : (s.after g x).cache.fillReg = false := by
    simp [beat,state]
  have lookup := settled.lookup busy
  cases dirty : s.cache.dirty with
  | false =>
    have clean : s.cache.dirtyMem (s.line g) = false := by rw [← settled.dirty busy,dirty]
    have command : (s.cache.slaveM g).cmd = .rd := by simp [slaveM,state,missing,dirty]
    have memory : (s.after g x).memory = _ := next_requested g.words x.slave settled.idle command
    refine requested missing' ⟨?_,?_,lines'⟩ count ?_ ?_
    · simp [state,dirty,settled.drained]
    · rw [address,miss_owner,memory]
      refine backed_more settled.backed fun idx => ?_
      by_cases here : idx = s.line g
      · exact .inr (by simp [here,owner,clean])
      · exact .inl (update_of_ne here _ _).symm
    · rw [memory,address]
      simp [slaveM,state]
    · simp [state,missing,dirty]
  | true =>
    have marked : s.cache.dirtyMem (s.line g) = true := by rw [← settled.dirty busy,dirty]
    have valid := dirtyValid _ (g.index_lt _) marked
    have quiet : (s.cache.slaveM g).cmd = .idle := by simp [slaveM,state,dirty]
    have memory : (s.after g x).memory = s.memory := next_unused g.words x.slave settled.idle quiet
    have reads : (s.cache.port g x.master x.slave false).rdAddr = s.line g*g.words+0 := by
      simp [port,selWrBack,missing,dirty,settled.drained]
    have begins : (s.after g x).cache.stateReg = .write := by
      simp [state,missing,dirty]
    have draining : Draining g (s.after g x) spec (s.cache.way.tagMem.mem (s.line g)) := by
      refine ⟨count ▸ g.words_pos,?_,empty,?_,?_,?_,?_,?_,?_⟩
      · rw [count]
        simp [state,missing,dirty,settled.drained]
      · rw [memory,count,settled.idle]
        rfl
      · rw [← lookup.tag]
        simp [missing]
      · rw [count,address,← reads]
        exact Way.rdData_next g s.cache.way _
      · rw [address,miss_content settled missing]
        exact settled.coherent _ (g.index_lt _) valid
      · rw [address,miss_owner,memory]
        refine backed_more settled.backed fun idx => .inl ?_
        by_cases here : idx = s.line g
        · rw [here,owner,marked,update_self]
          rfl
        · rw [update_of_ne here]
      · rw [count]
        exact fun off early => absurd early (Nat.not_lt_zero _)
    rw [Staged,begins]
    exact .write missing' draining lines'

theorem stage_step (several : 0 < g.wordBits) (valid : Valid g s spec) (admitted : (system g).admits s x)
    (undisturbed : Undisturbed g s x) :
    Staged g (s.after g x) (written g s spec) := by
  have stage := valid.stage
  have waits (missing : Missing g s) (busy : s.cache.busy = true) : written g s spec = spec := by
    simp [written,missing.core,busy_silent missing.quiet busy]
  generalize state : s.cache.stateReg = now at stage
  cases stage with
  | idle settled =>
    cases missing : s.cache.miss g with
    | false => exact hit_step settled state missing
    | true =>
      have same : written g s spec = spec := by
        simp [written,@miss_request g s x spec settled missing,miss_silent missing state,-system]
      rw [same]
      exact miss_step settled state missing valid.dirtyValid admitted (undisturbed.fits missing)
  | write missing draining lines =>
    rw [waits missing (by simp [busy,state])]
    exact drain_step several missing draining lines state admitted (undisturbed.taken state)
  | writeWaitForResp missing phase count empty fetching =>
    rw [waits missing (by simp [busy,state])]
    exact wait_step missing phase count fetching state admitted (undisturbed.drains state)
  | hold missing phase count fetching =>
    rw [waits missing (by simp [busy,state])]
    exact hold_step missing phase count fetching state admitted
  | fill missing phase inside fetching answered =>
    rw [waits missing (by simp [busy,state])]
    exact fill_step missing phase inside fetching answered state admitted (undisturbed.fills state)
  | respond missing phase count fetching answer => exact respond_step missing phase count fetching answer state

theorem stage_missing (stage : Stage g s spec state) (busy : state ≠ .idle) : Missing g s := by
  cases stage with
  | idle => exact absurd rfl busy
  | write missing | writeWaitForResp missing | hold missing | fill missing | respond missing => exact missing

theorem valid_settled (valid : Valid g s spec) (state : s.cache.stateReg = .idle) : Settled g s spec := by
  have stage := valid.stage
  rw [state] at stage
  cases stage with
  | idle settled => exact settled

theorem dirtyValid_next (valid : Valid g s spec) (undisturbed : Undisturbed g s x) : ∀ idx < g.lines,
    (s.after g x).cache.dirtyMem idx = true → (s.after g x).cache.way.tagVMem idx = true := by
  intro idx inside dirty
  by_cases here : idx = s.line g
  · by_cases idle : s.cache.stateReg = .idle
    · have settled := valid_settled valid idle
      cases missing : s.cache.miss g with
      | true => simp [Way.next,port,idle,missing,here]
      | false =>
        have held : s.cache.way.tagVMem idx = true := by
          have before : s.cache.marks g = true ∨ s.cache.dirtyMem idx = true := by
            simpa [missing,here] using dirty
          rcases before with marked | before
          · simp only [marks,Bool.and_eq_true,decide_eq_true_eq] at marked
            obtain ⟨hit,i,mask⟩ := marked
            have busy : s.cache.masterReg.cmd ≠ .idle := fun quiet => by simp [stmsk,quiet] at mask
            rw [here,← settled.fresh busy]
            exact ((settled.lookup busy).hit.1 hit).1
          · exact valid.dirtyValid idx inside before
        simpa [Way.next,port,idle,missing] using held
    · have missing := stage_missing valid.stage idle
      obtain ⟨noMiss,noMark,_⟩ := @quiet_still g s missing.quiet
      have before : s.cache.dirtyMem idx = true := by
        simpa [noMiss,noMark] using dirty
      have writing : s.cache.doingRead = false := by simpa [← here,before] using missing.marked
      have held := valid.dirtyValid idx inside before
      have kept : (s.cache.port g x.master x.slave false).drop = false :=
        decide_eq_false fun both => undisturbed.fills both.1 writing both.2
      have still : (s.cache.port g x.master x.slave false).allocate = false := noMiss
      simpa [Way.next,kept,still,show (s.cache.port g x.master x.slave false).invalidate = false from rfl]
        using held
  · have before : s.cache.dirtyMem idx = true := by
      simpa [here] using dirty
    simpa [Way.next,port,here] using valid.dirtyValid idx inside before

theorem settle_certain (r : Request) (sure : ∀ addr data byteEn, r = .write addr data byteEn → failed = false) :
    r.settle failed (fun word i => [spec word i]) = fun word i => [r.apply spec word i] := by
  cases r with
  | read addr => rfl
  | write addr data byteEn =>
    funext word i
    simp only [Request.settle,Request.apply,store_apply,sure _ _ _ rfl]
    by_cases here : word = addr/4 <;> by_cases enabled : byteEn i = true <;> simp [here,enabled,merge]

theorem certain_next (valid : Valid g s spec) : (s.after g x).candidates = fun word i => [written g s spec word i] := by
  have sure : ∀ addr data byteEn, s.core = some (.write addr data byteEn) → s.failed = false := by
    intro addr data byteEn write
    by_cases idle : s.cache.stateReg = .idle
    · have settled := valid_settled valid idle
      refine settled.sure fun quiet => ?_
      simp [settled.core,Request.of,quiet] at write
    · have missing := stage_missing valid.stage idle
      refine missing.sure ?_
      cases reading : s.cache.doingRead with
      | false => rfl
      | true => simp [missing.core,request,reading] at write
  simp only [State.after,State.after,system,settled,written,valid.certain]
  cases core : s.core with
  | none => rfl
  | some r =>
    by_cases silent : (s.cache.masterS g).resp = .null
    · simp [silent]
    · simp only [silent]
      exact settle_certain r fun addr data byteEn write => sure addr data byteEn (by rw [core,write])
end Step

def undisturbed (g : Geometry) : System State Cycle := (system g).restrict (Undisturbed g)

instance (g : Geometry) (s : State) (x : Cycle) : Decidable ((undisturbed g).admits s x) :=
  inferInstanceAs (Decidable (_ ∧ _))

theorem preserves_valid {g : Geometry} {spec : Nat → Word 4} (several : 0 < g.wordBits) (s : State) (x : Cycle) (valid : Valid g s spec)
    (admitted : (undisturbed g).admits s x) : Valid g ((undisturbed g).next s x) (written g s spec) where
  certain := certain_next valid
  dirtyValid := dirtyValid_next valid admitted.2
  stage := stage_step several valid admitted.1 admitted.2

theorem start_valid {g : Geometry} {s : State} (begun : (system g).start s) : Valid g s s.memory.ram := by
  obtain ⟨state,count,drained,empty,quiet,invalid,clean,phase,core,candidates⟩ := begun
  refine ⟨candidates,fun idx _ dirty => absurd dirty (by simp [clean]),?_⟩
  rw [state]
  have never {p : Prop} (busy : s.cache.masterReg.cmd ≠ .idle) : p := absurd quiet busy
  exact .idle ⟨count,drained,empty,phase,by rw [core,Request.of,quiet],never,never,never,never,
    fun idx _ valid => absurd valid (by simp [invalid]),never,fun _ _ _ _ _ _ => rfl⟩

theorem reached_valid {g : Geometry} {s : State} (several : 0 < g.wordBits) (path : Reached (undisturbed g) s) :
    ∃ spec, Valid g s spec := by
  induction path with
  | start begun => exact ⟨_,start_valid begun⟩
  | step _ admitted ih =>
    obtain ⟨spec,valid⟩ := ih
    exact ⟨_,preserves_valid several _ _ valid admitted⟩

theorem valid_read {g : Geometry} {s : State} {spec : Nat → Word 4} (valid : Valid g s spec) (reading : s.core = some (.read addr))
    (good : (s.cache.masterS g).resp = .dva) : (s.cache.masterS g).data = spec (addr/4) := by
  have stage := valid.stage
  have silent (missing : Missing g s) (busy : s.cache.busy = true) : False := by
    rw [busy_silent missing.quiet busy] at good
    cases good
  generalize state : s.cache.stateReg = now at stage
  cases stage with
  | idle settled =>
    have hit : s.cache.tagValid g = true ∧ s.cache.masterReg.cmd ≠ .idle := by
      by_contra other
      simp [masterS,state,other] at good
    have address : addr = s.cache.masterReg.addr := by
      rw [settled.core,Request.of] at reading
      split at reading <;> simp_all
    rw [address,← (settled.lookup hit.2).data hit.1]
    simp [masterS,state]
  | respond missing phase count fetching answer =>
    rw [missing.core,request] at reading
    simp only [masterS,state] at good ⊢
    cases read : s.cache.doingRead with
    | false => simp [read] at reading
    | true =>
      have address : s.cache.masterReg.addr = addr := by simpa [read] using reading
      rw [← address]
      exact answer.word read good
  | write missing | writeWaitForResp missing | hold missing | fill missing =>
    exact (silent missing (by simp [busy,state])).elim

theorem write_back_correct (g : Geometry) (several : 0 < g.wordBits) : ∀ s, Reached (undisturbed g) s → Correct g s := by
  intro s path
  obtain ⟨spec,valid⟩ := reached_valid several path
  refine ⟨fun addr reading good i => ?_,fun idle idx inside held off fits i => ?_⟩
  · rw [valid.certain,valid_read valid reading good]
    exact List.mem_singleton.2 rfl
  · rw [valid.certain,(valid_settled valid idle).coherent idx inside held off fits]
    exact List.mem_singleton.2 rfl

def readMaster (addr : Nat) : OcpCoreMasterSignals 4 := ⟨.rd,addr,fun _ => 0,fun _ => false⟩
def writeMaster (addr : Nat) : OcpCoreMasterSignals 4 := ⟨.wr,addr,fun _ => 1,fun _ => true⟩

def begin : State where
  cache := ⟨false,fun _ => 0,fun _ => false,quietMaster,.idle,0,0,
    ⟨⟨fun _ => 0,0,false,false,0⟩,fun _ => false,false,fun _ => ⟨fun _ => 0,0,false,false,0⟩⟩,fun _ => false,false,false,0,
    fun _ => 0,0,⟨.null,fun _ => 0⟩,0⟩
  memory := ⟨fun _ _ => 0,.idle⟩
  core := none
  failed := false
  candidates _ _ := [0]

theorem begin_starts (g : Geometry) : (system g).start begin :=
  ⟨rfl,rfl,rfl,rfl,rfl,fun _ => rfl,fun _ => rfl,rfl,rfl,rfl⟩

-- A write to address 0 allocates its line, a read of address 16 has it written back, with the given response.
def evict (resp : OcpResp) : List Cycle :=
  [⟨writeMaster 0,.quiet⟩,⟨quietMaster,.accept⟩,⟨quietMaster,.answer .dva⟩,⟨quietMaster,.answer .dva⟩,
    ⟨readMaster 16,.quiet⟩,⟨quietMaster,.quiet⟩,⟨quietMaster,.accept⟩,⟨quietMaster,.accept⟩,⟨quietMaster,.answer resp⟩]

-- The written word comes back with the line, also after a fill that failed.
def refetch : List Cycle :=
  evict .dva ++ [⟨quietMaster,.accept⟩,⟨quietMaster,.answer .err⟩,⟨quietMaster,.answer .dva⟩,⟨readMaster 0,.quiet⟩,
    ⟨quietMaster,.accept⟩,⟨quietMaster,⟨.dva,fun _ => 1,false,false⟩⟩,⟨quietMaster,.answer .dva⟩]

theorem write_back_correct_refetch : (undisturbed ⟨1,1⟩).Admits begin refetch ∧
    (((undisturbed ⟨1,1⟩).run begin refetch).cache.masterS ⟨1,1⟩).resp = .dva ∧
    Correct ⟨1,1⟩ ((undisturbed ⟨1,1⟩).run begin refetch) := by
  have admitted : (undisturbed ⟨1,1⟩).Admits begin refetch := by decide +kernel
  have start : (undisturbed ⟨1,1⟩).start begin := begin_starts ⟨1,1⟩
  exact ⟨admitted,by decide +kernel,write_back_correct _ (by decide) _ ((Reached.start start).run _ admitted)⟩

-- Between two requests main memory has the last value of every byte that no dirty line holds.
theorem memory_current {g : Geometry} (several : 0 < g.wordBits) (path : Reached (undisturbed g) s) (idle : s.cache.stateReg = .idle) :
    ∀ tag, ∀ idx < g.lines, (s.cache.way.tagMem.mem idx = tag → s.cache.dirtyMem idx = false) → ∀ off < g.words,
      ∀ i, s.candidates (g.block tag idx + off) i = [s.memory.ram (g.block tag idx + off) i] := by
  intro tag idx inside clean off fits i
  obtain ⟨spec,valid⟩ := reached_valid several path
  have free : owner s.cache idx ≠ some tag := by
    unfold owner
    split
    case isTrue dirty => exact fun held => by simp [clean (Option.some.inj held)] at dirty
    case isFalse => exact fun held => by cases held
  rw [valid.certain,(valid_settled valid idle).backed tag idx inside free off fits]

theorem memory_current_evicted :
    let s := (undisturbed ⟨1,1⟩).run begin (refetch.take 13)
    s.memory.ram 0 0 = 1 ∧ s.candidates 0 0 = [s.memory.ram 0 0] :=
  have path := (Reached.start (m := undisturbed ⟨1,1⟩) (begin_starts ⟨1,1⟩)).run (refetch.take 13) (by decide +kernel)
  ⟨by decide +kernel,memory_current (by decide) path (by decide +kernel) 0 0 (by decide) (by decide +kernel) 0 (by decide) 0⟩

-- After a failed write-back the new tag is valid over the old line, and a read under it hits.
theorem failed_write_back_misread : ¬∀ g, 0 < g.wordBits → ∀ s, Reached (system g) s → Correct g s := by
  intro correct
  have path := (Reached.start (begin_starts ⟨1,1⟩)).run (evict .err ++ [⟨readMaster 16,.quiet⟩]) (by decide +kernel)
  have read := (correct _ (by decide) _ path).read 16 (by decide +kernel) (by decide +kernel) 0
  exact absurd read (by decide +kernel)
end Patmos.DirectMappedWriteBack
