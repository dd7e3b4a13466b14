import Patmos.MCacheTransfer
namespace Patmos.MethodCache
open Transition MCacheCtrl CircularBuffer Nat

section
variable (g : MethodGeometry) (ispmOneBit : Nat) (condition : State → Cycle → Prop)

def Fits (s : State) (x : Cycle) : Prop :=
  calls ispmOneBit x = true → evenSize (methodSize s.memory.ram x.ex.callRetBase) < g.words

-- No method is called while space is still being freed.
def Freed (s : State) (x : Cycle) : Prop := calls ispmOneBit x = true → s.cache.repl.frees = false

-- A miss finds the last burst of the one before complete.
def Drained (s : State) : Prop :=
  s.cache.ctrl.stateReg = .idle → s.cache.repl.hitReg = false → s.memory.phase = .idle

def Safe : Prop :=
  ∀ s x, Reached ((system g ispmOneBit).restrict condition) s → ((system g ispmOneBit).restrict condition).admits s x →
    Correct g ispmOneBit s x

def careful : System State Cycle :=
  (system g ispmOneBit).restrict fun s x => Fits g ispmOneBit s x ∧ Freed ispmOneBit s x ∧ Drained s

structure Wide : Prop where
  size : 0 < g.sizeBits
  methods : 0 < g.methods
  burst : 0 < g.burstBits

-- The method of the control unit is not in the cache.
structure Missing (s : State) (first last : Nat) (entry : Nat → Method) : Prop where
  based : 0 < s.cache.ctrl.callRetBaseReg
  some : 1 ≤ methodSize s.memory.ram s.cache.ctrl.callRetBaseReg
  short : evenSize (methodSize s.memory.ram s.cache.ctrl.callRetBaseReg) < g.words
  place : s.cache.repl.posReg = s.cache.repl.nextPosReg
  frees : s.cache.repl.frees = false
  fresh : ∀ n, first ≤ n → n < last → s.cache.repl.validVec (n % g.methods) = true →
    (entry n).base ≠ s.cache.ctrl.callRetBaseReg

-- The first words of the newest method have been written, and the next one is the next of the burst.
structure Fetching (s : State) (m : Method) (start n : Nat) : Prop where
  base : m.base = s.cache.ctrl.callRetBaseReg
  some : 1 ≤ methodSize s.memory.ram m.base
  length : m.length = evenSize (methodSize s.memory.ram m.base)
  within : s.cache.ctrl.fetchCntReg ≤ methodSize s.memory.ram m.base
  limit : s.cache.ctrl.transferSizeReg = methodSize s.memory.ram m.base-1
  place : s.cache.repl.wrPosReg = m.start % g.words
  even : m.start % 2 = 0
  stored : Stored g s m s.cache.ctrl.fetchCntReg
  next : if s.cache.ctrl.fetchCntReg < methodSize s.memory.ram m.base then m.base+s.cache.ctrl.fetchCntReg = start+n else 0 < n
end

inductive Stage (g : MethodGeometry) (s : State) : MCacheState → Prop where
  | idle : s.cache.repl.hitReg = true → s.cache.ctrl.ocpCmdReg = .idle → Resident g s first last entry last → Stage g s .idle
  | miss : s.cache.repl.hitReg = false → s.cache.ctrl.ocpCmdReg = .idle → Resident g s first last entry last →
      Missing g s first last entry → Stage g s .idle
  | size : Resident g s first last entry last → Missing g s first last entry →
      Receiving g s (g.burstStart s.cache.ctrl.msizeAddr) n → s.cache.ctrl.burstCntReg = n →
      n ≤ s.cache.ctrl.msizeAddr % g.burst → Stage g s .size
  | transfer : s.cache.repl.hitReg = true → Resident g s first (last+1) entry last → Fetching g s (entry last) start n →
      Receiving g s start n → s.cache.ctrl.burstCntReg = n → s.reported = [] → Stage g s .transfer

structure Valid (g : MethodGeometry) (s : State) : Prop where
  only : ReadOnly s
  stage : Stage g s s.cache.ctrl.stateReg
  kept : ∀ pos base, (pos,base) ∈ s.reported → Present g s pos base

section Step
variable {g : MethodGeometry} {ispmOneBit : Nat} {s : State} {x : Cycle}

theorem hit_present (resident : Resident g s first last entry last) (frees : s.cache.repl.frees = false)
    (hit : s.cache.repl.hit g base = true) : Present g s (s.cache.repl.pos g base) base := by
  obtain ⟨n,above,below,valid,rfl,place⟩ := resident.fifo.found hit
  have space := resident.fifo.space frees
  have ordered := resident.fifo.start_mono le_rfl above below.le
  have stored := resident.words n above below valid (by omega)
  intro k inside
  rw [place,mod_add_mod]
  have word : s.cache.mem.content (((entry n).start+k) % g.words) = s.memory.ram ((entry n).base+((entry n).start+k-(entry n).start)) :=
    stored _ (le_add_right _ _) (by omega)
  rwa [Nat.add_sub_cancel_left] at word

theorem issues_quiet (issues : Issues g ispmOneBit s x)
    (busy : s.cache.ctrl.stateReg ≠ .idle ∨ s.cache.repl.hitReg = false) : x.ex.doCallRet = false := by
  cases called : x.ex.doCallRet with
  | false => rfl
  | true =>
    have free := issues.1 called
    rcases busy with busy | missing
    · exact absurd free.1 busy
    · rw [missing] at free
      exact absurd free.2 (by decide)

theorem kept_still (valid : Valid g s) (quiet : s.cache.ctrl.arrives = false)
    (fresh : calls ispmOneBit x = true → s.cache.repl.hit g x.ex.callRetBase = true →
      Present g s (s.cache.repl.pos g x.ex.callRetBase) x.ex.callRetBase) :
    ∀ pos base, (pos,base) ∈ reportedNext g ispmOneBit s x → Present g (s.after g ispmOneBit x) pos base := by
  intro pos base member
  rw [Present,content_still quiet,ram_step valid.only]
  unfold reportedNext at member
  split at member
  · cases member
  · split at member
    next hit =>
      rcases List.mem_cons.mp member with new | old
      · obtain ⟨rfl,rfl⟩ := Prod.mk.inj new
        exact fresh hit.1 hit.2
      · exact valid.kept pos base old
    next => exact valid.kept pos base member

theorem frees_still (frees : s.cache.repl.frees = false) (untagged : s.cache.ctrl.sized g = false) :
    (s.after g ispmOneBit x).cache.repl.frees = false := by
  have space : (s.after g ispmOneBit x).cache.repl.freeSpaceReg = s.cache.repl.freeSpaceReg := by
    simp [MCacheReplFifo.next,MCacheReplFifo.freeSpaceNext,frees,untagged]
  rw [MCacheReplFifo.frees,space]
  exact frees

theorem nextPos_still (untagged : s.cache.ctrl.sized g = false) :
    (s.after g ispmOneBit x).cache.repl.nextPosReg = s.cache.repl.nextPosReg := by
  simp [MCacheReplFifo.next,untagged]

theorem call_missing (wide : Wide g) (only : ReadOnly s) (issues : Issues g ispmOneBit s x) (fits : Fits g ispmOneBit s x)
    (freed : Freed ispmOneBit s x) (untagged : s.cache.ctrl.sized g = false) (called : calls ispmOneBit x = true)
    (missed : s.cache.repl.hit g x.ex.callRetBase = false)
    (fifo : Fifo g s.memory.ram (s.after g ispmOneBit x).cache.repl first last entry) :
    Missing g (s.after g ispmOneBit x) first last entry := by
  obtain ⟨⟨doCallRet,ena⟩,cached⟩ : (x.ex.doCallRet = true ∧ x.ena = true) ∧ selCache ispmOneBit x.ex.callRetBase = true := by
    simpa [calls] using called
  have base : (s.after g ispmOneBit x).cache.ctrl.callRetBaseReg = x.ex.callRetBase := by
    simp [next,doCallRet]
  refine ⟨?_,?_,?_,?_,frees_still (freed called) untagged,?_⟩
  · rw [base]
    refine Nat.pos_of_ne_zero fun zero => ?_
    simp [selCache,zero] at cached
  · rw [base,ram_step only]
    exact (issues.2 called).1
  · rw [base,ram_step only]
    exact fits called
  · rw [nextPos_still untagged]
    simp [MCacheReplFifo.next,MCacheReplFifo.pos,doCallRet,ena,cached,missed]
  · intro n above below valid same
    have still : (s.after g ispmOneBit x).cache.repl.addrVec = s.cache.repl.addrVec := by
      simp [MCacheReplFifo.next,untagged]
    have addr : s.cache.repl.addrVec (n % g.methods) = (entry n).base := by
      rw [← still]
      exact (fifo.held n above below).addr valid
    rw [base] at same
    have found := (hit_iff g s.cache.repl x.ex.callRetBase).mpr
      ⟨_,Nat.mod_lt n wide.methods,valid_before valid (.inl untagged),addr.trans same⟩
    rw [missed] at found
    cases found

theorem idle_step (wide : Wide g) (valid : Valid g s) (admitted : (careful g ispmOneBit).admits s x)
    (state : s.cache.ctrl.stateReg = .idle) (hit : s.cache.repl.hitReg = true) (command : s.cache.ctrl.ocpCmdReg = .idle)
    (resident : Resident g s first last entry last) : Valid g (s.after g ispmOneBit x) := by
  obtain ⟨⟨issues,answers,sound⟩,fits,freed,_⟩ := admitted
  obtain ⟨untagged,quiet,healthy⟩ := idle_signals g state
  have none : s.cache.ctrl.request g s.cache.repl.hitReg = none := by simp [request,hit,untagged,quiet]
  have command' : (s.after g ispmOneBit x).cache.ctrl.ocpCmdReg = .idle := by
    rw [system_ctrl,ocpCmd_next valid.only.sound none,command,ite_self]
  have state' : (s.after g ispmOneBit x).cache.ctrl.stateReg = .idle := by
    simp [next,healthy,valid.only.sound,stateNext,state,hit]
  have kept := @kept_still g ispmOneBit s x valid quiet fun called found => hit_present resident (freed called) found
  have later := @resident_still g ispmOneBit s x _ _ _ _ valid.only wide.methods resident untagged quiet
  refine ⟨readOnly_step valid.only sound,?_,kept⟩
  rw [state']
  cases hit' : (s.after g ispmOneBit x).cache.repl.hitReg with
  | true => exact .idle hit' command' later
  | false =>
    have fifo := later.fifo
    rw [ram_step valid.only] at fifo
    have looked : calls ispmOneBit x = true ∧ s.cache.repl.hit g x.ex.callRetBase = false := by
      simp only [system_repl,MCacheReplFifo.next,ctrlrepl_wTag,untagged,Bool.false_eq_true,if_false] at hit'
      split at hit'
      next called => exact ⟨called,hit'⟩
      next => rw [hit] at hit'; cases hit'
    exact .miss hit' command' later (call_missing wide valid.only issues fits freed untagged looked.1 looked.2 fifo)

theorem missing_still (only : ReadOnly s) (untagged : s.cache.ctrl.sized g = false) (silent : x.ex.doCallRet = false)
    (missing : Missing g s first last entry) : Missing g (s.after g ispmOneBit x) first last entry := by
  have base : (s.after g ispmOneBit x).cache.ctrl.callRetBaseReg = s.cache.ctrl.callRetBaseReg := by
    simp [next,silent]
  refine ⟨by rw [base]; exact missing.based,?_,?_,?_,frees_still missing.frees untagged,?_⟩
  · rw [base,ram_step only]
    exact missing.some
  · rw [base,ram_step only]
    exact missing.short
  · rw [nextPos_still untagged,← missing.place]
    simp [MCacheReplFifo.next,silent]
  · rw [base]
    exact fun n above below valid => missing.fresh n above below (valid_before valid (.inl untagged))

theorem missing_resident (wide : Wide g) (only : ReadOnly s) (resident : Resident g s first last entry last)
    (missing : Missing g s first last entry) (untagged : s.cache.ctrl.sized g = false) (quiet : s.cache.ctrl.arrives = false) :
    Resident g (s.after g ispmOneBit x) first last entry last := by
  have later := @resident_still g ispmOneBit s x _ _ _ _ only wide.methods resident untagged quiet
  rwa [firstAfter,missing.frees] at later

theorem miss_step (wide : Wide g) (valid : Valid g s) (admitted : (careful g ispmOneBit).admits s x) (state : s.cache.ctrl.stateReg = .idle)
    (hit : s.cache.repl.hitReg = false) (resident : Resident g s first last entry last)
    (missing : Missing g s first last entry) : Valid g (s.after g ispmOneBit x) := by
  obtain ⟨⟨issues,answers,sound⟩,_,_,drained⟩ := admitted
  have silent := issues_quiet issues (.inr hit)
  obtain ⟨untagged,quiet,healthy⟩ := idle_signals g state
  have requested : s.cache.ctrl.request g s.cache.repl.hitReg = some (g.burstStart s.cache.ctrl.msizeAddr) := by
    simp [request,state,hit]
  have state' : (s.after g ispmOneBit x).cache.ctrl.stateReg = .size := by
    simp [next,healthy,valid.only.sound,stateNext,state,hit]
  have base : (s.after g ispmOneBit x).cache.ctrl.msizeAddr = s.cache.ctrl.msizeAddr := by
    simp [msizeAddr,next,silent]
  have receiving := @request_step g ispmOneBit s x _ (drained state hit) valid.only.sound requested answers
  refine ⟨readOnly_step valid.only sound,?_,kept_still valid quiet fun called => by simp [calls,silent] at called⟩
  rw [state']
  refine .size (missing_resident wide valid.only resident missing untagged quiet)
    (missing_still valid.only untagged silent missing) (by rwa [base]) ?_ (zero_le _)
  simp [next,valid.only.sound,requested,state]

theorem burstCnt_next (only : ReadOnly s) (state : s.cache.ctrl.stateReg = .size ∨ s.cache.ctrl.stateReg = .transfer)
    (none : s.cache.ctrl.request g s.cache.repl.hitReg = none) (count : s.cache.ctrl.burstCntReg = n)
    (more : consumed s n < g.burst) : (s.after g ispmOneBit x).cache.ctrl.burstCntReg = consumed s n := by
  have calm : s.cache.ctrl.stateReg ≠ .error := by rcases state with state | state <;> simp [state]
  have sound := only.sound
  rw [consumed] at more ⊢
  simp only [system_ctrl,next,sound,calm,state,none,count,false_and,or_self,if_false,Option.isSome_none,
    Bool.false_eq_true,true_and]
  split
  next valid =>
    rw [if_pos valid] at more
    exact mod_eq_of_lt more
  next => rfl

theorem sized_word (receiving : Receiving g s (g.burstStart s.cache.ctrl.msizeAddr) n) (tagged : s.cache.ctrl.sized g = true)
    (count : s.cache.ctrl.burstCntReg = n) (bound : s.calledSize < 2^(g.sizeBits+1)) :
    g.burstStart s.cache.ctrl.msizeAddr+n = s.cache.ctrl.callRetBaseReg-1 ∧
      s.cache.ctrl.size g = s.calledSize := by
  obtain ⟨_,valid,place⟩ := of_decide_eq_true tagged
  have address : g.burstStart s.cache.ctrl.msizeAddr+n = s.cache.ctrl.callRetBaseReg-1 := by
    rw [← count,place,MethodGeometry.burstStart,div_add_mod']
    rfl
  have word := (receiving.word valid).1
  rw [address] at word
  refine ⟨address,?_⟩
  rw [MCacheCtrl.size,word]
  exact mod_eq_of_lt bound

theorem sized_fetching (valid : Valid g s) (silent : x.ex.doCallRet = false) (tagged : s.cache.ctrl.sized g = true)
    (resident : Resident g s first last entry last) (missing : Missing g s first last entry)
    (size : s.cache.ctrl.size g = s.calledSize)
    (next : s.cache.ctrl.callRetBaseReg = start+n) :
    Fetching g (s.after g ispmOneBit x)
      ⟨s.cache.ctrl.callRetBaseReg,(entry last).start,evenSize s.calledSize⟩ start n := by
  have ram := @ram_step g ispmOneBit s x valid.only
  have count : (s.after g ispmOneBit x).cache.ctrl.fetchCntReg = 0 := if_pos tagged
  have some : 1 ≤ s.calledSize := missing.some
  have short : evenSize s.calledSize < g.words := missing.short
  have even := (size_even s.calledSize).1
  refine ⟨?_,?_,?_,?_,?_,?_,?_,?_,?_⟩
  · simp [MCacheCtrl.next,silent]
  · rw [ram]
    exact some
  · rw [ram]
  · rw [count]
    exact zero_le _
  · refine (if_pos tagged).trans ?_
    rw [size,ram]
    rw [Nat.sub_add_comm some,Nat.add_mod_right]
    exact mod_eq_of_lt (by change _ < g.words; omega)
  · refine (if_pos tagged).trans ?_
    rw [missing.place]
    exact resident.fifo.pos
  · exact resident.fifo.even
  · rw [count]
    exact Holds.empty le_rfl
  · rw [count,ram]
    exact (if_pos some).mpr next

section Size
variable (wide : Wide g) (valid : Valid g s) (admitted : (careful g ispmOneBit).admits s x)
  (state : s.cache.ctrl.stateReg = .size) (resident : Resident g s first last entry last) (missing : Missing g s first last entry)
  (receiving : Receiving g s (g.burstStart s.cache.ctrl.msizeAddr) n) (count : s.cache.ctrl.burstCntReg = n)
  (before : n ≤ s.cache.ctrl.msizeAddr % g.burst)
include wide valid admitted state resident missing receiving count before

theorem size_waits (untagged : s.cache.ctrl.sized g = false) : Valid g (s.after g ispmOneBit x) := by
  obtain ⟨⟨issues,answers,sound⟩,_⟩ := admitted
  have silent := issues_quiet issues (.inl (by rw [state]; decide))
  have quiet := (size_signals g state).1
  have none : s.cache.ctrl.request g s.cache.repl.hitReg = none := by simp [request,state,untagged,quiet]
  have base : (s.after g ispmOneBit x).cache.ctrl.msizeAddr = s.cache.ctrl.msizeAddr := by
    simp [msizeAddr,next,silent]
  obtain ⟨early,state'⟩ := @counts_early g ispmOneBit s x valid.only _ state untagged count before
  have more := early.trans_lt (mod_lt _ (burst_pos g))
  refine ⟨readOnly_step valid.only sound,?_,kept_still valid quiet fun called => by simp [calls,silent] at called⟩
  rw [state']
  refine .size (missing_resident wide valid.only resident missing untagged quiet)
    (missing_still valid.only untagged silent missing) ?_ (burstCnt_next valid.only (.inl state) none count more) (by rwa [base])
  rw [base]
  exact receive_step receiving none answers sound more

theorem sized_step (tagged : s.cache.ctrl.sized g = true) : Valid g (s.after g ispmOneBit x) := by
  obtain ⟨⟨issues,answers,sound⟩,_⟩ := admitted
  have silent := issues_quiet issues (.inl (by rw [state]; decide))
  have state' : (s.after g ispmOneBit x).cache.ctrl.stateReg = .transfer := by
    simp [next,(size_signals g state).2,valid.only.sound,stateNext,state,tagged]
  have hit' : (s.after g ispmOneBit x).cache.repl.hitReg = true := if_pos tagged
  have cleared : (s.after g ispmOneBit x).reported = [] := if_pos tagged
  have based := missing.based
  have within := before.trans_lt (mod_lt _ (burst_pos g))
  have arrived : s.cache.ctrl.ocpSlaveReg.resp = .dva := (of_decide_eq_true tagged).2.1
  have bound : s.calledSize < 2^(g.sizeBits+1) := by
    have short : evenSize s.calledSize < g.words := missing.short
    have even := (size_even s.calledSize).1
    have wider : 2^(g.sizeBits+1) = g.words*2 := pow_succ ..
    omega
  obtain ⟨address,size⟩ := sized_word receiving tagged count bound
  have later := @resident_tagged g ispmOneBit s x _ _ _ valid.only wide.methods resident missing.frees tagged size missing.short
    missing.fresh
  refine ⟨readOnly_step valid.only sound,?_,by simp [cleared]⟩
  rw [state']
  rcases sized_cases s.cache.repl.hitReg tagged count within with ⟨last,requested⟩ | ⟨early,none⟩
  · have phase := (receiving.word arrived).2 last
    refine .transfer hit' later ?_ (request_step phase valid.only.sound requested answers) ?_ cleared
    · rw [placed_new]
      exact sized_fetching valid silent tagged resident missing size rfl
    · simp [next,valid.only.sound,requested,state]
  · have more : consumed s n < g.burst := by rwa [consumed,if_pos arrived]
    refine .transfer hit' later ?_ (receive_step receiving none answers sound more)
      (burstCnt_next valid.only (.inl state) none count more) cleared
    rw [placed_new,consumed,if_pos arrived]
    exact sized_fetching valid silent tagged resident missing size (by omega)
end Size

theorem resident_complete (resident : Resident g s first (last+1) entry last)
    (stored : Stored g s (entry last) (methodSize s.memory.ram (entry last).base)) :
    Resident g s first (last+1) entry (last+1) := by
  refine ⟨resident.fifo,?_⟩
  intro n above below valid near
  rcases lt_or_eq_of_le (le_of_lt_succ below) with old | rfl
  · exact resident.words n above old valid near
  · exact stored

section Transfer
variable (wide : Wide g) (valid : Valid g s) (admitted : (careful g ispmOneBit).admits s x)
  (state : s.cache.ctrl.stateReg = .transfer) (hit : s.cache.repl.hitReg = true) (cleared : s.reported = [])
  (resident : Resident g s first (last+1) entry last) (fetching : Fetching g s (entry last) start n)
  (receiving : Receiving g s start n) (count : s.cache.ctrl.burstCntReg = n)
include admitted state

theorem transfer_silent : x.ex.doCallRet = false := issues_quiet admitted.1.1 (.inl (by rw [state]; decide))

include valid

theorem fetching_step (fetching : Fetching g s m start n) (counted : (s.after g ispmOneBit x).cache.ctrl.fetchCntReg = done)
    (within : done ≤ methodSize s.memory.ram m.base) (stored : Stored g (s.after g ispmOneBit x) m done)
    (next : if done < methodSize s.memory.ram m.base then m.base+done = start'+n' else 0 < n') :
    Fetching g (s.after g ispmOneBit x) m start' n' := by
  obtain ⟨place,limit,_⟩ := @transfer_next g ispmOneBit s x valid.only state
  have ram := @ram_step g ispmOneBit s x valid.only
  refine ⟨?_,?_,?_,?_,?_,place.trans fetching.place,fetching.even,?_,?_⟩
  · rw [fetching.base]
    simp [MCacheCtrl.next,transfer_silent admitted state]
  · rw [ram]
    exact fetching.some
  · rw [ram]
    exact fetching.length
  · rw [counted,ram]
    exact within
  · rw [ram]
    exact limit.trans fetching.limit
  · rw [counted]
    exact stored
  · rw [counted,ram]
    exact next

include hit cleared

theorem transfer_valid (stage : (s.after g ispmOneBit x).cache.repl.hitReg = true →
      (s.after g ispmOneBit x).reported = [] →
      Stage g (s.after g ispmOneBit x) (if s.cache.ctrl.finishes g then .idle else .transfer)) :
    Valid g (s.after g ispmOneBit x) := by
  have silent := transfer_silent admitted state
  have hit' : (s.after g ispmOneBit x).cache.repl.hitReg = true := by simp [MCacheReplFifo.next,silent,hit]
  have cleared' : (s.after g ispmOneBit x).reported = [] := by
    simp [State.after,system,reportedNext,calls,silent,cleared]
  refine ⟨readOnly_step valid.only admitted.1.2.2,?_,by simp [cleared']⟩
  rw [(transfer_next valid.only state).2.2]
  exact stage hit' cleared'

theorem transfer_ends (ends : s.cache.ctrl.finishes g = true) (none : s.cache.ctrl.request g s.cache.repl.hitReg = none)
    (command : s.cache.ctrl.ocpCmdReg = .idle)
    (resident : Resident g (s.after g ispmOneBit x) first (last+1) entry last)
    (stored : Stored g (s.after g ispmOneBit x) (entry last) (methodSize s.memory.ram (entry last).base)) :
    Valid g (s.after g ispmOneBit x) := by
  have command' : (s.after g ispmOneBit x).cache.ctrl.ocpCmdReg = .idle := by
    rw [system_ctrl,ocpCmd_next valid.only.sound none,command,ite_self]
  refine transfer_valid valid admitted state hit cleared fun hit' _ => ?_
  rw [ends]
  refine .idle hit' command' (resident_complete resident ?_)
  rwa [ram_step valid.only]

include wide resident fetching receiving count

theorem word_step (left : s.cache.ctrl.fetchCntReg < methodSize s.memory.ram (entry last).base)
    (data : s.cache.ctrl.ocpSlaveReg.resp = .dva) : Valid g (s.after g ispmOneBit x) := by
  obtain ⟨_,answers,sound⟩ := admitted.1
  have within := receiving.within
  obtain ⟨arriving,cases⟩ := word_cases s.cache.repl.hitReg state fetching.limit left data count within
  have short := resident.fifo.short last (le_of_lt_succ resident.fifo.some) (lt_succ_self _)
  have even := (size_even (methodSize s.memory.ram (entry last).base)).1
  have length := fetching.length
  have next := fetching.next
  rw [if_pos left] at next
  have word := (receiving.word data).1
  rw [← next] at word
  have later := @resident_written _ _ _ g ispmOneBit s x valid.only wide.size resident arriving fetching.place fetching.even (by omega)
    wide.methods
  have stored := @stored_newest g ispmOneBit s x _ _ valid.only wide.size fetching.stored arriving fetching.place fetching.even rfl
    (by omega) word
  have counted := @counts_word g ispmOneBit s x state arriving (by omega)
  rcases cases with ⟨final,more,going,requested⟩ | ⟨final,complete,ends,none⟩ | ⟨early,going,none⟩
  · refine transfer_valid valid admitted state hit cleared fun hit' cleared' => ?_
    rw [going]
    refine .transfer hit' later (fetching_step valid admitted state fetching counted more.le stored ?_)
      (request_step ((receiving.word data).2 final) valid.only.sound requested answers) ?_ cleared'
    · rw [if_pos more,fetching.base]
      rfl
    · simp [MCacheCtrl.next,valid.only.sound,requested,state]
  · rw [complete] at stored
    have several : 0 < n := by
      have burst : 1 < g.burst := Nat.one_lt_two_pow wide.burst.ne'
      omega
    exact transfer_ends valid admitted state hit cleared ends none (receiving.command several) later stored
  · have more : consumed s n < g.burst := by rwa [consumed,if_pos data]
    refine transfer_valid valid admitted state hit cleared fun hit' cleared' => ?_
    rw [going]
    refine .transfer hit' later (fetching_step valid admitted state fetching counted left stored ?_)
      (receive_step receiving none answers sound more) (burstCnt_next valid.only (.inr state) none count more) cleared'
    rw [consumed]
    split
    · omega
    · exact succ_pos _

theorem pause_step
    (pauses : s.cache.ctrl.fetchCntReg < methodSize s.memory.ram (entry last).base → s.cache.ctrl.ocpSlaveReg.resp ≠ .dva) :
    Valid g (s.after g ispmOneBit x) := by
  obtain ⟨_,answers,sound⟩ := admitted.1
  have within := fetching.within
  have next := fetching.next
  have beats := receiving.within
  obtain ⟨quiet,none,cases⟩ :=
    pause_cases s.cache.repl.hitReg state fetching.limit fetching.some fetching.within pauses count beats
  have later := @resident_still g ispmOneBit s x _ _ _ _ valid.only wide.methods resident (transfer_signals g state).1 quiet
  have stored : Stored g (s.after g ispmOneBit x) (entry last) s.cache.ctrl.fetchCntReg := by
    rw [Stored,content_still quiet,ram_step valid.only]
    exact fetching.stored
  have goes (going : s.cache.ctrl.finishes g = false) (more : consumed s n < g.burst)
      (onward : if s.cache.ctrl.fetchCntReg < methodSize s.memory.ram (entry last).base then
        (entry last).base+s.cache.ctrl.fetchCntReg = start+consumed s n else 0 < consumed s n) :
      Valid g (s.after g ispmOneBit x) := by
    refine transfer_valid valid admitted state hit cleared fun hit' cleared' => ?_
    rw [going]
    exact .transfer hit' later (fetching_step valid admitted state fetching (counts_pause state quiet) within stored onward)
      (receive_step receiving none answers sound more) (burstCnt_next valid.only (.inr state) none count more) cleared'
  have several : n ≤ consumed s n ∧ consumed s n ≤ n+1 := by
    rw [consumed]
    split <;> omega
  rcases cases with ⟨left,going⟩ | ⟨complete,final,ends⟩ | ⟨complete,early,going⟩
  · have same : consumed s n = n := if_neg (pauses left)
    exact goes going (by rwa [same]) (by rwa [same])
  · rw [complete] at stored
    rw [if_neg (by omega)] at next
    exact transfer_ends valid admitted state hit cleared ends none (receiving.command next) later stored
  · rw [if_neg (by omega)] at next
    refine goes going (by omega) ?_
    rw [if_neg (by omega)]
    omega

theorem transfer_step : Valid g (s.after g ispmOneBit x) := by
  by_cases writes : s.cache.ctrl.fetchCntReg < methodSize s.memory.ram (entry last).base ∧ s.cache.ctrl.ocpSlaveReg.resp = .dva
  · exact word_step wide valid admitted state hit cleared resident fetching receiving count writes.1 writes.2
  · exact pause_step wide valid admitted state hit cleared resident fetching receiving count fun left data => writes ⟨left,data⟩
end Transfer

theorem valid_step (wide : Wide g) (valid : Valid g s) (admitted : (careful g ispmOneBit).admits s x) :
    Valid g ((careful g ispmOneBit).next s x) := by
  have stage := valid.stage
  generalize state : s.cache.ctrl.stateReg = now at stage
  cases stage with
  | idle hit command resident => exact idle_step wide valid admitted state hit command resident
  | miss hit command resident missing => exact miss_step wide valid admitted state hit resident missing
  | size resident missing receiving count before =>
    cases tagged : s.cache.ctrl.sized g with
    | true => exact sized_step wide valid admitted state resident missing receiving count before tagged
    | false => exact size_waits wide valid admitted state resident missing receiving count before tagged
  | transfer hit resident fetching receiving count cleared =>
    exact transfer_step wide valid admitted state hit cleared resident fetching receiving count
end Step

theorem start_valid (wide : Wide g) (begun : (system g ispmOneBit).start s) : Valid g s := by
  obtain ⟨state,command,hit,sizes,invalid,index,tag,pos,free,sound,phase,reported⟩ := begun
  refine ⟨⟨sound,by rw [command]; decide,.inl phase⟩,?_,by simp [reported]⟩
  rw [state]
  refine .idle hit command ⟨Queue.initial wide.methods sizes invalid index tag pos free fun t ⟨empty,vacant⟩ => ?_,?_⟩
  · exact ⟨empty,by simp [vacant],by simp [vacant],by simp [vacant]⟩
  · intro n _ _ valid
    rw [invalid] at valid
    cases valid

theorem reached_valid (wide : Wide g) (path : Reached (careful g ispmOneBit) s) : Valid g s :=
  path.invariant (fun s begun => @start_valid g ispmOneBit s wide begun) fun _ _ valid admitted => valid_step wide valid admitted

theorem method_cache_correct (g : MethodGeometry) (ispmOneBit : Nat) (wide : Wide g) :
    Safe g ispmOneBit fun s x => Fits g ispmOneBit s x ∧ Freed ispmOneBit s x ∧ Drained s := by
  intro s x path admitted
  have valid := reached_valid wide path
  refine ⟨?_,valid.kept⟩
  intro called hit
  have doCallRet : x.ex.doCallRet = true := by
    simp only [calls,Bool.and_eq_true] at called
    exact called.1.1
  have stage := valid.stage
  rw [(admitted.1.1.1 doCallRet).1] at stage
  cases stage with
  | idle _ _ resident | miss _ _ resident => exact hit_present resident (admitted.2.2.1 called) hit

instance (g : MethodGeometry) (ispmOneBit : Nat) (s : State) (x : Cycle) : Decidable (Fits g ispmOneBit s x) :=
  inferInstanceAs (Decidable (_ → _))

instance (ispmOneBit : Nat) (s : State) (x : Cycle) : Decidable (Freed ispmOneBit s x) := inferInstanceAs (Decidable (_ → _))

instance (s : State) : Decidable (Drained s) := inferInstanceAs (Decidable (_ → _ → _))

instance (g : MethodGeometry) (ispmOneBit : Nat) (condition : State → Cycle → Prop) [∀ s x, Decidable (condition s x)] (s : State)
    (x : Cycle) : Decidable (((system g ispmOneBit).restrict condition).admits s x) := inferInstanceAs (Decidable (_ ∧ _))

-- Methods of 6, 2, 2, 8, 1 and 2 words, with their sizes in bytes in front.
def program (word : Nat) : Word 4 := fun i =>
  if i.val ≠ 0 then 0
  else if word = 32769 then 24
  else if word = 32785 ∨ word = 32801 ∨ word = 32848 ∨ word = 32849 then 8
  else if word = 32817 then 32
  else if word = 32833 then 4
  else BitVec.ofNat 8 word

def begin (g : MethodGeometry) : State where
  cache := {
    ctrl := ⟨.idle,.idle,0,0,0,0,0,0,0,.quiet⟩
    repl := {
      addrVec := fun _ => 0
      sizeVec := fun _ => 0
      validVec := fun _ => false
      posVec := fun _ => 0
      nextIndexReg := 0
      nextTagReg := 0
      nextPosReg := 0
      freeSpaceReg := g.words
      posReg := 0
      hitReg := true
      wrPosReg := 0
      callRetBaseReg := 1
      callAddrReg := 1
      selSpmReg := false
      selCacheReg := false
      instrEvenReg := fun _ => 0
      instrOddReg := fun _ => 0 }
    mem := ⟨⟨fun _ _ => 0,fun _ => 0,false,false,fun _ => 0⟩,⟨fun _ _ => 0,fun _ => 0,false,false,fun _ => 0⟩⟩ }
  memory := ⟨program,.idle⟩
  reported := []

theorem begin_starts (g : MethodGeometry) (ispmOneBit : Nat) (condition : State → Cycle → Prop) :
    ((system g ispmOneBit).restrict condition).start (begin g) :=
  ⟨rfl,rfl,rfl,fun _ => rfl,fun _ => rfl,rfl,rfl,rfl,rfl,nofun,rfl,rfl⟩

def respond (slave : OcpBurstSlaveSignals 4) : Cycle := ⟨true,false,⟨false,0,0⟩,⟨0,1⟩,slave⟩
def quiet : Cycle := respond .quiet
def accept : Cycle := respond .accept
def beat (word : Nat) : Cycle := respond ⟨.dva,program word,false,false⟩
def call (base : Nat) : Cycle := {quiet with ex := ⟨true,base,0⟩}

def fetch (base pairs : Nat) : List Cycle :=
  [call base,accept,beat (base-2),beat (base-1)] ++
    (List.range pairs).flatMap (fun i => [accept,beat (base+2*i),beat (base+2*i+1)]) ++ [quiet]

-- The third method overwrites the first one, whose tag has been evicted by then if there are few tags.
def overwrite : List Cycle := fetch 32770 3 ++ fetch 32786 1 ++ fetch 32802 1

instance (g : MethodGeometry) (ispmOneBit : Nat) (s : State) (x : Cycle) : Decidable ((careful g ispmOneBit).admits s x) :=
  inferInstanceAs (Decidable (_ ∧ _))

theorem method_cache_correct_evicted : (careful ⟨3,4,1⟩ 16).Admits (begin ⟨3,4,1⟩) overwrite ∧
    ((careful ⟨3,4,1⟩ 16).run (begin ⟨3,4,1⟩) overwrite).cache.repl.hit ⟨3,4,1⟩ 32770 = false ∧
    ((careful ⟨3,4,1⟩ 16).run (begin ⟨3,4,1⟩) overwrite).cache.repl.hit ⟨3,4,1⟩ 32786 = true ∧
    Correct ⟨3,4,1⟩ 16 ((careful ⟨3,4,1⟩ 16).run (begin ⟨3,4,1⟩) overwrite) (call 32786) := by
  have admitted : (careful ⟨3,4,1⟩ 16).Admits (begin ⟨3,4,1⟩) overwrite := by decide +kernel
  have path : Reached (careful ⟨3,4,1⟩ 16) _ := (Reached.start (begin_starts _ _ _)).run _ admitted
  exact ⟨admitted,by decide +kernel,by decide +kernel,
    method_cache_correct ⟨3,4,1⟩ 16 ⟨by decide,by decide,by decide⟩ _ _ path (by decide +kernel)⟩

-- With sixteen tags the eviction first passes the unused ones.
def passing : List Cycle := overwrite ++ [quiet,quiet,quiet,quiet,quiet,quiet]

-- The size of the whole cache counts as negative, and nothing is evicted.
def whole : List Cycle := fetch 32786 1 ++ fetch 32818 4

-- The last beat of the first transfer arrives in the next one, which takes the word two before the method for its size.
def undrained : List Cycle :=
  [call 32834,accept,beat 32832,beat 32833,accept,beat 32834,quiet,quiet,call 32850,quiet,beat 32835,accept,beat 32848,quiet,
    beat 32849,accept,beat 32850,quiet]

theorem overwritten_method_hits : ¬Safe ⟨3,16,1⟩ 16 (fun s x => Fits ⟨3,16,1⟩ 16 s x ∧ Drained s) ∧
    ¬Safe ⟨3,16,1⟩ 16 (fun s x => Freed 16 s x ∧ Drained s) ∧
    ¬Safe ⟨3,16,1⟩ 16 (fun s x => Fits ⟨3,16,1⟩ 16 s x ∧ Freed 16 s x) := by
  refine ⟨fun safe => ?_,fun safe => ?_,fun safe => ?_⟩
  · have path := (Reached.start (begin_starts ⟨3,16,1⟩ 16 fun s x => Fits ⟨3,16,1⟩ 16 s x ∧ Drained s)).run passing (by decide +kernel)
    have present := (safe _ (call 32770) path (by decide +kernel)).hit (by decide +kernel) (by decide +kernel)
    exact absurd present (by decide +kernel)
  · have path := (Reached.start (begin_starts ⟨3,16,1⟩ 16 fun s x => Freed 16 s x ∧ Drained s)).run whole (by decide +kernel)
    have present := (safe _ (call 32786) path (by decide +kernel)).hit (by decide +kernel) (by decide +kernel)
    exact absurd present (by decide +kernel)
  · have path := (Reached.start (begin_starts ⟨3,16,1⟩ 16 fun s x => Fits ⟨3,16,1⟩ 16 s x ∧ Freed 16 s x)).run undrained
      (by decide +kernel)
    have present := (safe _ (call 32850) path (by decide +kernel)).hit (by decide +kernel) (by decide +kernel)
    exact absurd present (by decide +kernel)
end Patmos.MethodCache
