import Patmos.Sha256Service
namespace Patmos.Sha256
open Sha2 Transition Nat

attribute [local simp] State.next Bus.next

section Reached
variable {c : Config} {s : State c} {x : Cycle}

def Port (s : State c) : Prop :=
  match s.unit.memState with
  | .memReadReqH => s.bus = .free ∧ s.unit.inBurst c = 0
  | .memReadH => ∃ addr, s.bus = .reading addr (s.unit.inBurst c)
  | .memWriteReqH => s.bus = .free
  | .memWriteH => s.bus = .written ∨ ∃ addr beat, s.bus = .writing addr beat
  | _ => False

structure Transferring (s : State c) : Prop where
  state : s.unit.stateReg = .idle
  count : s.unit.blockCountReg = 0
  buffers : s.unit.memBufferReg = s.unit.ShaBufferReg
  port : Port s

def Valid (s : State c) : Prop := Resting s ∨ Transferring s ∨ ∃ job d f, Running job d f s

theorem transferring_next {r : Bool} {q : Sha256} (unit : (s.next x).unit = {q with retryReg := r}) (state : q.stateReg = .idle)
    (count : q.blockCountReg = 0) (buffers : q.memBufferReg = q.ShaBufferReg) (port : Port (s.next x)) :
    Valid (s.next x) :=
  .inr (.inl ⟨by rw [unit]; exact state,by rw [unit]; exact count,by rw [unit]; exact buffers,port⟩)

theorem Transferring.moves (transferring : Transferring s)
    (unit : (s.next x).unit = {s.unit.expand with hash := h, hashAddrReg := a, memState := m, wordCountReg := w, retryReg := r})
    (port : Port (s.next x)) : Valid (s.next x) :=
  transferring_next (q := {s.unit.expand with hash := h, hashAddrReg := a, memState := m, wordCountReg := w}) unit transferring.state transferring.count transferring.buffers port

theorem resting_next {r : Bool} {q : Sha256} (unit : (s.next x).unit = {q with retryReg := r})
    (state : q.stateReg = .idle ∨ q.stateReg = .restart) (mem : q.memState = .memIdle) (count : q.blockCountReg = 0)
    (buffers : q.memBufferReg = q.ShaBufferReg) (words : q.wordCountReg = 0) (bus : (s.next x).bus = .free) :
    Valid (s.next x) :=
  .inl ⟨by rw [unit]; exact state,by rw [unit]; exact mem,by rw [unit]; exact count,by rw [unit]; exact buffers,
    by rw [unit]; exact words,bus⟩

theorem resting_unit (resting : Resting s) (state : s.unit.stateReg = .idle) :
    ∃ r, (s.next x).unit = {s.unit.command s.unit.expand x.cop with retryReg := r} := by
  refine ⟨((x.cop.trigger && x.cop.ena_in) || s.unit.retryReg) && !s.unit.enaOut x.cop,?_⟩
  show s.unit.next c x.cop x.mem = _
  simp only [Sha256.next,memory,resting.mem,compression,state]

theorem start_running {r : Bool} (resting : Resting s) (state : s.unit.stateReg = .idle)
    (unit : (s.next x).unit =
      {s.unit.expand with
        blockAddrReg := addr
        memState := .memReadReqM
        blockCountReg := BitVec.ofNat 32 n
        retryReg := r})
    (some : 0 < n) (limit : n ≤ 2^32) : Running ⟨s.unit.hash,addr,n,s.unit.ShaBufferReg,s.ram⟩ 0 0 (s.next x) := by
  obtain ⟨bus,ram⟩ := bus_quiet (x := x) resting.bus (by simp [master,resting.mem])
  have idle : (s.next x).unit.stateReg = .idle := by rw [unit]; exact state
  have reads : (s.next x).unit.memState = .memReadReqM := by rw [unit]
  have zero : (s.next x).unit.wordCountReg = 0 := by rw [unit]; exact resting.words
  have begins : (s.next x).unit.inBurst c = 0 := by rw [inBurst,zero,zero_mod]
  have selector : (Job.mk (c := c) s.unit.hash addr n s.unit.ShaBufferReg s.ram).selector 0 = s.unit.ShaBufferReg :=
    Bool.xor_false _
  refine ⟨le_refl 0,zero_le 2,zero_le n,some,limit,ram,by rw [unit]; rfl,by rw [unit,selector]; rfl,?_,?_,?_,?_,?_⟩
  · rw [unit,selector]
    exact resting.buffers
  · rw [unit]
    rfl
  · exact fun i _ earlier => absurd earlier (not_lt_zero i)
  · simp only [Engine,idle]
  · simp only [Fetch,reads]
    refine ⟨⟨some,zero_le 1,by omega,?_,?_⟩,bus,begins⟩
    · rw [zero,begins,unit]
      exact (BitVec.add_zero addr).symm
    · rw [zero]
      exact fun k below => absurd below (not_lt_zero k)

-- A count of zero counts as the largest one: the counter passes through all its values.
theorem count_number (count : BitVec 32) : ∃ n, 0 < n ∧ n ≤ 2^32 ∧ count = BitVec.ofNat 32 n := by
  by_cases zero : count = 0#32
  · exact ⟨2^32,by decide,le_rfl,by rw [zero]; rfl⟩
  · refine ⟨count.toNat,?_,count.isLt.le,by rw [BitVec.ofNat_toNat,BitVec.setWidth_eq]⟩
    exact Nat.pos_of_ne_zero fun none => zero (BitVec.eq_of_toNat_eq none)

theorem resting_step (resting : Resting s) : Valid (s.next x) := by
  obtain ⟨bus,-⟩ := bus_quiet (x := x) resting.bus (by simp [master,resting.mem])
  rcases resting.state with state | state
  · obtain ⟨r,unit⟩ := resting_unit (x := x) resting state
    unfold command at unit
    have begins (zero : (s.next x).unit.wordCountReg = s.unit.wordCountReg) : (s.next x).unit.inBurst c = 0 := by
      rw [inBurst,zero,resting.words,zero_mod]
    split at unit
    · split at unit
      · exact resting_next unit (.inr rfl) resting.mem resting.count resting.buffers resting.words bus
      · split at unit
        · have after : (s.next x).unit.memState = .memReadReqH := by rw [unit]
          refine transferring_next unit state resting.count resting.buffers ?_
          simp only [Port,after]
          exact ⟨bus,begins (by rw [unit]; rfl)⟩
        · split at unit
          · have after : (s.next x).unit.memState = .memWriteReqH := by rw [unit]
            refine transferring_next unit state resting.count resting.buffers ?_
            simp only [Port,after]
            exact bus
          · split at unit
            · exact .inr (.inr ⟨_,0,0,start_running resting state unit zero_lt_one (by decide)⟩)
            · split at unit
              · obtain ⟨n,some,limit,count⟩ := count_number x.cop.opData1
                rw [count] at unit
                exact .inr (.inr ⟨_,0,0,start_running resting state unit some limit⟩)
              · exact resting_next unit (.inl state) resting.mem resting.count resting.buffers resting.words bus
    · exact resting_next unit (.inl state) resting.mem resting.count resting.buffers resting.words bus
  · have busy : s.unit.isIdle = false := by simp [isIdle,state]
    have unit : (s.next x).unit = {s.unit.expand with
        hash := hashDefaults
        stateReg := .idle
        retryReg := ((x.cop.trigger && x.cop.ena_in) || s.unit.retryReg) && !s.unit.enaOut x.cop} := by
      show s.unit.next c x.cop x.mem = _
      simp only [Sha256.next,memory,resting.mem,compression,state,command,busy,Bool.and_false]
      rfl
    exact resting_next (q := {s.unit.expand with hash := hashDefaults, stateReg := .idle}) unit (.inl rfl) resting.mem
      resting.count resting.buffers resting.words bus

theorem transferring_unit (transferring : Transferring s) (busy : s.unit.memState ≠ .memIdle) :
    ∃ r, (s.next x).unit = {s.unit.memory c s.unit.expand x.mem with retryReg := r} := by
  refine ⟨((x.cop.trigger && x.cop.ena_in) || s.unit.retryReg) && !s.unit.enaOut x.cop,?_⟩
  show s.unit.next c x.cop x.mem = _
  have busy : s.unit.isIdle = false := by simp [isIdle,busy]
  simp only [Sha256.next,compression,transferring.state,command,busy,Bool.and_false]
  rfl

theorem counted_burst (c : Config) (u : Sha256) :
    (u.inBurst c < c.burstLength-1 → u.counted % c.burstLength = u.inBurst c+1 ∧ u.inBurst c+1 ≠ c.burstLength) ∧
    (¬u.inBurst c < c.burstLength-1 → u.counted % c.burstLength = 0 ∧ u.inBurst c+1 = c.burstLength) := by
  unfold inBurst counted
  rcases burst_cases c with length | length | length <;> rw [length] <;> omega

theorem reads_hash (transferring : Transferring s) (mem : s.unit.memState = .memReadH) : Valid (s.next x) := by
  obtain ⟨r,unit⟩ := transferring_unit (x := x) transferring (by simp [mem])
  obtain ⟨within,last⟩ := counted_burst c s.unit
  have port := transferring.port
  simp only [Port,mem] at port
  obtain ⟨addr,bus⟩ := port
  simp only [memory,mem] at unit
  split at unit
  case isFalse silent =>
    have after : (s.next x).unit.memState = .memReadH := by rw [unit]; exact mem
    have words : (s.next x).unit.wordCountReg = s.unit.wordCountReg := by rw [unit]; rfl
    refine transferring.moves unit ?_
    simp only [Port,after]
    refine ⟨addr,?_⟩
    have same : (s.next x).unit.inBurst c = s.unit.inBurst c := by rw [inBurst,words]; rfl
    rw [same]
    simp [bus,silent]
  case isTrue dva =>
    split at unit
    case isTrue inside =>
      obtain ⟨beat,unended⟩ := within inside
      have after : (s.next x).unit.memState = .memReadH := by rw [unit]; exact mem
      have words : (s.next x).unit.inBurst c = s.unit.inBurst c+1 := by rw [unit]; exact beat
      refine transferring.moves unit ?_
      simp only [Port,after]
      refine ⟨addr,?_⟩
      rw [words]
      simp [bus,dva,unended]
    case isFalse outside =>
      obtain ⟨begins,ended⟩ := last outside
      have free : (s.next x).bus = .free := by simp [bus,dva,ended]
      split at unit
      · have after : (s.next x).unit.memState = .memReadReqH := by rw [unit]
        refine transferring.moves unit ?_
        simp only [Port,after]
        exact ⟨free,by rw [unit]; exact begins⟩
      · exact resting_next unit (.inl transferring.state) rfl transferring.count transferring.buffers rfl free

theorem writes_hash (transferring : Transferring s) (admitted : (system c).admits s x) (mem : s.unit.memState = .memWriteH) :
    Valid (s.next x) := by
  obtain ⟨r,unit⟩ := transferring_unit (x := x) transferring (by simp [mem])
  have port := transferring.port
  simp only [Port,mem] at port
  have kept : ∀ p : Prop, ∀ decided : Decidable p, (if p then {s.unit.expand with wordCountReg := s.unit.counted} else s.unit.expand) =
      {s.unit.expand with wordCountReg := if p then s.unit.counted else s.unit.wordCountReg} := by
    intro p decided
    split <;> rfl
  simp only [memory,mem,kept] at unit
  split at unit
  case isFalse silent =>
    have after : (s.next x).unit.memState = .memWriteH := by rw [unit]; exact mem
    refine transferring.moves unit ?_
    simp only [Port,after]
    rcases port with written | ⟨addr,beat,writing⟩
    · exact .inl (by simp [written,silent])
    · simp only [State.next,writing,Bus.next]
      split
      case isTrue =>
        split
        · exact .inl rfl
        · exact .inr ⟨addr,beat+1,rfl⟩
      case isFalse => exact .inr ⟨addr,beat,rfl⟩
  case isTrue dva =>
    -- Only a burst that has been written as a whole is answered.
    have written : s.bus = .written := by
      rcases port with written | ⟨addr,beat,writing⟩
      · exact written
      · have answers := admitted.1 dva
        simp [Answers,writing] at answers
    have free : (s.next x).bus = .free := by simp [written,dva]
    split at unit
    · have after : (s.next x).unit.memState = .memWriteReqH := by rw [unit]
      refine transferring.moves unit ?_
      simp only [Port,after]
      exact free
    · exact resting_next unit (.inl transferring.state) rfl transferring.count transferring.buffers rfl free

theorem transferring_step (transferring : Transferring s) (admitted : (system c).admits s x) : Valid (s.next x) := by
  have port := transferring.port
  cases mem : s.unit.memState with
  | memIdle | memReadReqM | memReadM | memWait => simp [Port,mem] at port
  | memReadH => exact reads_hash transferring mem
  | memWriteH => exact writes_hash transferring admitted mem
  | memReadReqH =>
    obtain ⟨r,unit⟩ := transferring_unit (x := x) transferring (by simp [mem])
    simp only [Port,mem] at port
    obtain ⟨free,begins⟩ := port
    simp only [memory,mem] at unit
    have command : s.unit.master = ⟨.rd,s.unit.hashAddrReg,0#32,false⟩ := by simp only [master,mem]
    have words : (s.next x).unit.inBurst c = 0 := by
      rw [unit,← begins]
      cases x.mem.cmdAccept <;> rfl
    cases accepted : x.mem.cmdAccept with
    | false =>
      simp only [accepted] at unit
      have after : (s.next x).unit.memState = .memReadReqH := by rw [unit]; exact mem
      refine transferring.moves unit ?_
      simp only [Port,after]
      exact ⟨by simp [free,accepted],words⟩
    | true =>
      simp only [accepted,if_true] at unit
      have after : (s.next x).unit.memState = .memReadH := by rw [unit]
      refine transferring.moves unit ?_
      simp only [Port,after]
      exact ⟨_,by rw [words]; simp [free,accepted,command]; rfl⟩
  | memWriteReqH =>
    obtain ⟨r,unit⟩ := transferring_unit (x := x) transferring (by simp [mem])
    simp only [Port,mem] at port
    simp only [memory,mem] at unit
    have command : s.unit.master.cmd = .wr := by simp only [master,mem]
    cases accepted : x.mem.cmdAccept with
    | false =>
      simp only [accepted] at unit
      have after : (s.next x).unit.memState = .memWriteReqH := by rw [unit]; exact mem
      refine transferring.moves unit ?_
      simp only [Port,after]
      simp [port,accepted]
    | true =>
      have data := admitted.2 command accepted
      simp only [accepted,data,Bool.and_self,if_true] at unit
      have after : (s.next x).unit.memState = .memWriteH := by rw [unit]
      refine transferring.moves unit ?_
      simp only [Port,after]
      exact .inr ⟨_,1,by simp [port,accepted,command]; rfl⟩

theorem reached_valid (path : Reached (system c) s) : Valid s := by
  refine path.invariant (fun s begun => .inl begun) ?_
  rintro s x (resting | transferring | ⟨job,d,f,running⟩) admitted
  · exact resting_step resting
  · exact transferring_step transferring admitted
  · rcases running_step running admitted with finished | ⟨d',f',still,-⟩
    · exact .inl finished.resting
    · exact .inr (.inr ⟨job,d',f',still⟩)

theorem idle_resting (path : Reached (system c) s) (idle : s.unit.isIdle = true) :
    Resting s ∧ s.unit.stateReg = .idle := by
  have states : s.unit.stateReg = .idle ∧ s.unit.memState = .memIdle ∧ s.unit.blockCountReg = 0#32 := by
    simpa [isIdle] using idle
  rcases reached_valid path with resting | transferring | ⟨job,d,f,running⟩
  · exact ⟨resting,states.1⟩
  · have port := transferring.port
    simp [Port,states.2.1] at port
  · rw [running_busy running] at idle
    exact absurd idle Bool.false_ne_true
end Reached

section Progress
variable {c : Config} {s : State c} {inputs : Nat → Cycle}

def Orders (u : Sha256) (i : CopIn) (n : Nat) : Prop :=
  u.active i = true ∧ i.read = false ∧
    ((i.funcId = funcSingleBlock ∧ n = 1) ∨ (i.funcId = funcMultipleBlocks ∧ i.opData1.toNat = n))

def message (s : State c) (addr : BitVec 32) (i k : Nat) : BitVec 32 :=
  s.ram ((addr+BitVec.ofNat 32 (64*i+4*k)).setWidth _)

def polls (u : Sha256) (i : CopIn) : Prop := u.active i = true ∧ i.read = true ∧ i.funcId = funcPoll

theorem ordered_running (path : Reached (system c) s) (idle : s.unit.isIdle = true) {x : Cycle} (order : s.unit.Orders x.cop n)
    (some : 0 < n) : Running ⟨s.unit.hash,x.cop.opData0,n,s.unit.ShaBufferReg,s.ram⟩ 0 0 (s.next x) := by
  obtain ⟨resting,state⟩ := idle_resting path idle
  obtain ⟨active,write,order⟩ := order
  obtain ⟨r,unit⟩ := resting_unit (x := x) resting state
  unfold command at unit
  rw [idle,active,write] at unit
  rcases order with ⟨single,rfl⟩ | ⟨multiple,rfl⟩
  · rw [single] at unit
    exact start_running resting state unit some (by decide)
  · rw [multiple] at unit
    refine start_running (r := r) resting state ?_ some x.cop.opData1.isLt.le
    rw [BitVec.ofNat_toNat]
    exact unit

theorem sha256_compresses (path : Reached (system c) s) (idle : s.unit.isIdle = true)
    (follows : ∀ t, (system c).Follows s inputs t) (order : s.unit.Orders (inputs 0).cop n) (some : 0 < n)
    (fair : ∀ t, ∃ u, t ≤ u ∧ ¬Stalls ((system c).states s inputs u) (inputs u)) :
    ∃ t, ((system c).states s inputs (t+1)).unit.isIdle = true ∧
      ((system c).states s inputs (t+1)).unit.hash = Sha2.digest s.unit.hash (message s (inputs 0).cop.opData0) n ∧
      ∀ u, 0 < u → u ≤ t → ∀ i, ((system c).states s inputs u).unit.polls i →
        ((system c).states s inputs u).unit.enaOut i = true ∧ ((system c).states s inputs u).unit.result i = 1#32 := by
  have started := ordered_running path idle order some
  generalize job_eq : Job.mk (c := c) s.unit.hash (inputs 0).cop.opData0 n s.unit.ShaBufferReg s.ram = job at started
  have run := @System.settles _ _ s _ 1 (system c) (fun r s => ∃ d f, Running job d f s ∧ left job d f s.unit = r) (Finished job)
    Stalls ?_ inputs follows fair ⟨0,0,started,rfl⟩
  · obtain ⟨t,-,finished,before⟩ := run
    refine ⟨t,finished.idle,?_,fun u past upTo i poll => ?_⟩
    · rw [finished.hash,← job_eq]
      rfl
    · obtain ⟨r,d,f,running,-⟩ := before u past upTo
      obtain ⟨active,read,poll⟩ := poll
      simp [enaOut,result,active,read,poll,running_busy running]
  · rintro r s x ⟨d,f,running,rfl⟩ admitted
    rcases running_step running admitted with finished | ⟨d',f',still,nearer⟩
    · exact .inl finished
    · exact .inr ⟨_,⟨d',f',still,rfl⟩,nearer⟩

-- A memory that answers at once, and a processor that repeats its command.
def respond (cop : CopIn) (s : State c) : Cycle :=
  match s.bus with
  | .reading addr beat => ⟨cop,.dva,s.ram (beatAddr addr beat),true,true⟩
  | .written => ⟨cop,.dva,0#32,true,true⟩
  | _ => ⟨cop,.null,0#32,true,true⟩

theorem respond_admitted (cop : CopIn) (s : State c) : (system c).admits s (respond cop s) := by
  unfold system respond
  cases bus : s.bus with
  | reading addr beat | written => exact ⟨fun _ => by simp [Answers,bus],fun _ _ => rfl⟩
  | free | writing addr beat => exact ⟨fun dva => by simp at dva,fun _ _ => rfl⟩

theorem respond_prompt (cop : CopIn) (s : State c) : ¬Stalls s (respond cop s) := by
  unfold Stalls respond
  cases bus : s.bus with
  | free | reading addr beat | writing addr beat | written => simp [Bus.waits]

def burstOfFour : Config := ⟨2,le_succ 1,le_succ 2,32,le_refl 32⟩

def rested : State burstOfFour where
  unit :=
    {memBufferReg := false
     ShaBufferReg := false
     hash := hashDefaults
     vars := hashDefaults
     idxReg := 0
     msg := fun _ _ => 0#32
     stateReg := .idle
     memState := .memIdle
     blockAddrReg := 0#32
     hashAddrReg := 0#32
     wordCountReg := 0
     blockCountReg := 0#32
     wt := fun _ => 0#32
     wx := 0#32
     wy := 0#32
     wz := 0#32
     pipeReg := 0#32
     retryReg := false}
  bus := .free
  ram := fun addr => addr*addr

def twoBlocks : CopIn := ⟨true,true,false,false,funcMultipleBlocks,0x100#32,2#32⟩

def promptly (t : Nat) : Cycle := respond twoBlocks ((system burstOfFour).driven (respond twoBlocks) rested t)

theorem sha256_compresses_two :
    ∃ t, ((system burstOfFour).states rested promptly (t+1)).unit.isIdle = true ∧
      ((system burstOfFour).states rested promptly (t+1)).unit.hash = Sha2.digest hashDefaults (message rested 0x100#32) 2 := by
  have driven : ∀ t, promptly t = respond twoBlocks ((system burstOfFour).states rested promptly t) :=
    fun t => congrArg _ ((system burstOfFour).states_driven (respond twoBlocks) rested t).symm
  have follows (t : Nat) : (system burstOfFour).Follows rested promptly t := fun u _ => by
    rw [driven]
    exact respond_admitted _ _
  obtain ⟨t,idle,hash,-⟩ := sha256_compresses (n := 2)
    (Reached.start (m := system burstOfFour) (s := rested) ⟨.inl rfl,rfl,rfl,rfl,rfl,rfl⟩) rfl follows ⟨rfl,rfl,.inr ⟨rfl,rfl⟩⟩ (by decide)
    (fun t => ⟨t,le_rfl,by rw [driven]; exact respond_prompt _ _⟩)
  exact ⟨t,idle,hash⟩
end Progress
end Patmos.Sha256
