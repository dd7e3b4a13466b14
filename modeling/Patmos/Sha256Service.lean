import Patmos.Sha256Engine
namespace Patmos.Sha256
open Sha2 Transition Nat

-- The memory at the port: what it owes to the burst that is under way.
inductive Bus (width : Nat) where
  | free
  | reading (addr : BitVec width) (beat : Nat)
  | writing (addr : BitVec width) (beat : Nat)
  | written

def beatAddr (addr : BitVec width) (beat : Nat) : BitVec width := addr+BitVec.ofNat width (4*beat)

structure State (c : Config) where
  unit : Sha256
  bus : Bus c.extmemAddrWidth
  ram : BitVec c.extmemAddrWidth → BitVec 32

structure Cycle where
  cop : CopIn
  mem : MemS

section System
variable {c : Config}

def Bus.next (bus : Bus c.extmemAddrWidth) (m : MemM) (s : MemS) : Bus c.extmemAddrWidth :=
  match bus with
  | .free =>
    if s.cmdAccept then
      match m.cmd with
      | .idle => .free
      | .rd => .reading (m.addr.setWidth _) 0
      | .wr => .writing (m.addr.setWidth _) 1
    else .free
  | .reading addr beat => if s.resp = .dva then if beat+1 = c.burstLength then .free else .reading addr (beat+1) else bus
  | .writing addr beat =>
    if m.dataValid && s.dataAccept then if beat+1 = c.burstLength then .written else .writing addr (beat+1) else bus
  | .written => if s.resp = .dva then .free else bus

def store (ram : BitVec width → BitVec 32) (addr : BitVec width) (data : BitVec 32) : BitVec width → BitVec 32 :=
  fun other => if other = addr then data else ram other

def State.stores (s : State c) (m : MemM) (x : MemS) : BitVec c.extmemAddrWidth → BitVec 32 :=
  match s.bus with
  | .free => if x.cmdAccept && decide (m.cmd = .wr) then store s.ram (m.addr.setWidth _) m.data else s.ram
  | .writing addr beat => if m.dataValid && x.dataAccept then store s.ram (beatAddr addr beat) m.data else s.ram
  | _ => s.ram

def State.next (s : State c) (x : Cycle) : State c :=
  ⟨s.unit.next c x.cop x.mem,s.bus.next s.unit.master x.mem,s.stores s.unit.master x.mem⟩

-- An answer belongs to a burst that has been accepted before.
def Answers (s : State c) (x : MemS) : Prop :=
  match s.bus with
  | .reading addr beat => x.data = s.ram (beatAddr addr beat)
  | .written => True
  | _ => False

-- The unit rests: no transfer is under way and no block is left.
structure Resting (s : State c) : Prop where
  state : s.unit.stateReg = .idle ∨ s.unit.stateReg = .restart
  mem : s.unit.memState = .memIdle
  count : s.unit.blockCountReg = 0
  buffers : s.unit.memBufferReg = s.unit.ShaBufferReg
  words : s.unit.wordCountReg = 0
  bus : s.bus = .free

-- The first word of a write is accepted with its command.
def system (c : Config) : System (State c) Cycle where
  start := Resting
  admits := fun s x =>
    (x.mem.resp = .dva → Answers s x.mem) ∧ (s.unit.master.cmd = .wr → x.mem.cmdAccept = true → x.mem.dataAccept = true)
  next := State.next

def Bus.waits (bus : Bus width) (s : MemS) : Prop :=
  match bus with
  | .free => False
  | .writing _ _ => s.dataAccept = false
  | _ => s.resp ≠ .dva

def Stalls (s : State c) (x : Cycle) : Prop :=
  (s.unit.master.cmd ≠ .idle ∧ x.mem.cmdAccept = false) ∨ s.bus.waits x.mem
end System

structure Job (c : Config) where
  hash : Words
  addr : BitVec 32
  count : Nat
  buffer : Bool
  ram : BitVec c.extmemAddrWidth → BitVec 32

namespace Job
variable {c : Config} (job : Job c)

def block (i k : Nat) : BitVec 32 := job.ram ((job.addr+BitVec.ofNat 32 (64*i+4*k)).setWidth _)
def digest (i : Nat) : Words := Sha2.digest job.hash job.block i
-- Blocks go into the two buffers by turns.
def selector (i : Nat) : Bool := job.buffer ^^ decide (i % 2 = 1)

theorem selector_succ (i : Nat) : job.selector (i+1) = !job.selector i := by
  unfold selector
  rcases mod_two_eq_zero_or_one i with even | odd
  · simp [add_mod,even]
  · simp [add_mod,odd]

theorem digest_succ (i : Nat) : job.digest (i+1) = compress (job.digest i) (job.block i) := rfl
end Job

section Invariant
variable {c : Config} {job : Job c} {d f : Nat}

def Engine (job : Job c) (d f : Nat) (u : Sha256) : Prop :=
  match u.stateReg with
  | .idle | .waiting => d = f
  | .restart => False
  | .start => d < f ∧ u.idxReg = 0
  | .compress => d < f ∧ ∃ t < 64, Compressing u (job.digest d) (job.block d) t
  | .update => d < f ∧ u.vars = rounds (job.block d) (job.digest d) 64

def pipeline (u : Sha256) :=
  (u.stateReg,u.idxReg,u.vars,u.wt,u.wx,u.wy,u.wz,u.pipeReg)

theorem engine_congr {u q : Sha256} (same : u.pipeline = q.pipeline) (engine : Engine job d f q) : Engine job d f u := by
  obtain ⟨⟩ := u
  obtain ⟨⟩ := q
  obtain ⟨rfl,rfl,rfl,rfl,rfl,rfl,rfl,rfl⟩ := same
  unfold Engine at *
  dsimp only at engine ⊢
  split at engine
  case h_5 =>
    obtain ⟨active,t,few,index,⟨taps,first,second,third⟩,vars,pipe⟩ := engine
    exact ⟨active,t,few,index,⟨taps,first,second,third⟩,vars,pipe⟩
  all_goals exact engine

section
variable (job : Job c) (d f : Nat) (u : Sha256)

structure Reading : Prop where
  more : f < job.count
  room : f ≤ d+1
  few : u.wordCountReg < 16
  addr : u.blockAddrReg = job.addr+BitVec.ofNat 32 (64*f+4*(u.wordCountReg-u.inBurst c))
  arrived : ∀ k < u.wordCountReg, u.msg (job.selector f) k = job.block f k

def Fetch (s : State c) : Prop :=
  match s.unit.memState with
  | .memReadReqM => Reading job d f s.unit ∧ s.bus = .free ∧ s.unit.inBurst c = 0
  | .memReadM => Reading job d f s.unit ∧ s.bus = .reading (s.unit.blockAddrReg.setWidth _) (s.unit.inBurst c)
  | .memWait => f < job.count ∧ f = d+2 ∧ s.unit.wordCountReg = 0 ∧
    s.unit.blockAddrReg = job.addr+BitVec.ofNat 32 (64*f) ∧ s.bus = .free
  | .memIdle => f = job.count ∧ s.unit.wordCountReg = 0 ∧ s.bus = .free
  | _ => False

-- Of the job d blocks have been compressed and f have been fetched.
structure Running (s : State c) : Prop where
  behind : d ≤ f
  ahead : f ≤ d+2
  inside : f ≤ job.count
  unfinished : d < job.count
  limit : job.count ≤ 2^32
  ram : s.ram = job.ram
  hash : s.unit.hash = job.digest d
  sha : s.unit.ShaBufferReg = job.selector d
  mem : s.unit.memBufferReg = job.selector f
  count : s.unit.blockCountReg = BitVec.ofNat 32 (job.count-f)
  stored : ∀ i, d ≤ i → i < f → ∀ k < 16, s.unit.msg (job.selector i) k = job.block i k
  engine : Engine job d f s.unit
  fetch : Fetch job d f s

def engineLeft : Nat :=
  match u.stateReg with
  | .start => 66
  | .compress => 66-u.idxReg
  | .update => 1
  | _ => 0

def memLeft : Nat :=
  match u.memState with
  | .memReadReqM => 2*(16-u.wordCountReg)+1
  | .memReadM => 2*(16-u.wordCountReg)
  | _ => 0

structure Compressed (d d' f : Nat) (u q : Sha256) : Prop where
  later : d ≤ d'
  behind : d' ≤ f
  hash : q.hash = job.digest d'
  sha : q.ShaBufferReg = job.selector d'
  engine : Engine job d' f q
  nearer : (d' = d ∧ u.stateReg ≠ .update ∧ (engineLeft q < engineLeft u ∨ (d = f ∧ engineLeft q = engineLeft u))) ∨
    (d' = d+1 ∧ u.stateReg = .update ∧ engineLeft q ≤ 66)
end

section
variable {s : State c} (running : Running job d f s)
include running

theorem running_busy : s.unit.isIdle = false := by
  have unfinished := running.unfinished
  have engine := running.engine
  have fetch := running.fetch
  unfold isIdle
  by_contra idle
  simp only [decide_eq_false_iff_not,Classical.not_not] at idle
  obtain ⟨state,mem,-⟩ := idle
  simp only [Engine,state] at engine
  simp only [Fetch,mem] at fetch
  omega

theorem update_engine (state : s.unit.stateReg = .update) :
    Engine job (d+1) f (s.unit.compression s.unit.expand) ∧ engineLeft (s.unit.compression s.unit.expand) ≤ 66 := by
  have engine := running.engine
  have ahead := running.ahead
  have fetch := running.fetch
  simp only [Engine,state] at engine
  have same : s.unit.ShaBufferReg = s.unit.memBufferReg ↔ f = d+2 := by
    rw [running.sha,running.mem]
    constructor
    · intro equal
      by_contra other
      obtain rfl : f = d+1 := by omega
      rw [Job.selector_succ] at equal
      exact absurd equal (by cases job.selector d <;> decide)
    · rintro rfl
      rw [Job.selector_succ,Job.selector_succ,Bool.not_not]
  cases mem : s.unit.memState with
  | memReadReqM | memReadM =>
    simp only [Fetch,mem] at fetch
    have room := fetch.1.room
    simp only [Engine,engineLeft,compression,state,mem]
    omega
  | memWait =>
    simp only [Fetch,mem] at fetch
    simp only [Engine,compression,state,mem]
    exact ⟨⟨by omega,trivial⟩,le_rfl⟩
  | memIdle =>
    by_cases equal : s.unit.ShaBufferReg = s.unit.memBufferReg
    · have next := same.mp equal
      simp only [Engine,compression,state,mem,equal,if_true]
      exact ⟨⟨by omega,trivial⟩,le_rfl⟩
    · have none : f ≠ d+2 := fun next => equal (same.mpr next)
      simp only [Engine,engineLeft,compression,state,mem,equal,if_false]
      omega
  | memReadReqH | memReadH | memWriteReqH | memWriteH => simp [Fetch,mem] at fetch

omit running in
theorem hash_kept {u : Sha256} (active : u.stateReg = .start ∨ u.stateReg = .compress) :
    (u.compression u.expand).hash = u.hash ∧ (u.compression u.expand).ShaBufferReg = u.ShaBufferReg := by
  rcases active with state | state <;> simp only [compression,state] <;> exact ⟨rfl,rfl⟩

theorem compressed_step : ∃ d', Compressed job d d' f s.unit (s.unit.compression s.unit.expand) := by
  have engine := running.engine
  have hash := running.hash
  have sha := running.sha
  have message (active : d < f) : ∀ k < 16, s.unit.msg s.unit.ShaBufferReg k = job.block d k := by
    rw [sha]
    exact running.stored d le_rfl active
  cases state : s.unit.stateReg with
  | idle | waiting =>
    simp only [Engine,state] at engine
    have same : s.unit.compression s.unit.expand = s.unit.expand := by simp only [compression,state]
    rw [same]
    refine ⟨d,le_rfl,running.behind,hash,sha,?_,.inl ⟨rfl,by simp [state],.inr ⟨engine,rfl⟩⟩⟩
    have resting : s.unit.expand.stateReg = _ := state
    simp only [Engine,resting]
    exact engine
  | restart => simp [Engine,state] at engine
  | start =>
    simp only [Engine,state] at engine
    obtain ⟨active,index⟩ := engine
    have compressing := start_compressing (message active) state index
    rw [hash] at compressing
    obtain ⟨sameHash,sameSha⟩ := hash_kept (.inl state)
    refine ⟨d,le_rfl,running.behind,sameHash.trans hash,sameSha.trans sha,?_,.inl ⟨rfl,by simp [state],.inl ?_⟩⟩
    · have later : (s.unit.compression s.unit.expand).stateReg = .compress := by simp only [compression,state]
      simp only [Engine,later]
      exact ⟨active,0,by decide,compressing⟩
    · simp only [engineLeft,compression,state]
      omega
  | compress =>
    simp only [Engine,state] at engine
    obtain ⟨active,t,few,compressing⟩ := engine
    obtain ⟨sameHash,sameSha⟩ := hash_kept (.inr state)
    refine ⟨d,le_rfl,running.behind,sameHash.trans hash,sameSha.trans sha,?_,.inl ⟨rfl,by simp [state],.inl ?_⟩⟩
    · by_cases more : t+1 < 64
      · have later : (s.unit.compression s.unit.expand).stateReg = .compress := by
          simp only [compression,state,compressing.index,more,if_true]
        simp only [Engine,later]
        exact ⟨active,t+1,more,compress_compressing (message active) state compressing more⟩
      · obtain rfl : t = 63 := by omega
        have later : (s.unit.compression s.unit.expand).stateReg = .update := by
          simp only [compression,state,compressing.index]
          rfl
        simp only [Engine,later]
        exact ⟨active,compress_last state compressing⟩
    · have index := compressing.index
      simp only [engineLeft,compression,state]
      by_cases more : t+1 < 64
      · simp only [index,more,if_true]
        omega
      · simp only [index,more,if_false]
        omega
  | update =>
    simp only [Engine,state] at engine
    obtain ⟨active,vars⟩ := engine
    have final : (s.unit.compression s.unit.expand).hash = job.digest (d+1) := by
      rw [Job.digest_succ,Sha2.compress,← vars,← hash]
      simp only [compression,state]
      split <;> (try split) <;> rfl
    have turned : (s.unit.compression s.unit.expand).ShaBufferReg = job.selector (d+1) := by
      rw [Job.selector_succ,← sha]
      simp only [compression,state]
      split <;> (try split) <;> rfl
    obtain ⟨reached,left⟩ := update_engine running state
    exact ⟨d+1,le_succ d,active,final,turned,reached,.inr ⟨rfl,state,left⟩⟩
end

theorem burst_cases (c : Config) : c.burstLength = 2 ∨ c.burstLength = 4 ∨ c.burstLength = 8 := by
  have several := c.several
  have short := c.short
  have offsets : c.burstOffset = 1 ∨ c.burstOffset = 2 ∨ c.burstOffset = 3 := by omega
  unfold Config.burstLength
  rcases offsets with offset | offset | offset <;> simp [offset]

theorem beat_block (job : Job c) (f n k : Nat) (addr : a = job.addr+BitVec.ofNat 32 (64*f+4*n)) :
    job.ram (beatAddr (a.setWidth c.extmemAddrWidth) k) = job.block f (n+k) := by
  unfold beatAddr Job.block
  congr 1
  have wide : BitVec.ofNat c.extmemAddrWidth (4*k) = (BitVec.ofNat 32 (4*k)).setWidth c.extmemAddrWidth := by
    rw [BitVec.setWidth_ofNat_of_le c.narrow]
  rw [wide,← BitVec.setWidth_add _ _ c.narrow,addr,BitVec.add_assoc,← BitVec.ofNat_add]
  congr 3
  omega

attribute [local simp] State.next Bus.next State.stores

section Step
variable {s : State c} {x : Cycle} {q : Sha256}

theorem running_unit (running : Running job d f s) :
    ∃ r, (s.next x).unit = {s.unit.memory c (s.unit.compression s.unit.expand) x.mem with retryReg := r} := by
  refine ⟨((x.cop.trigger && x.cop.ena_in) || s.unit.retryReg) && !s.unit.enaOut x.cop,?_⟩
  show s.unit.next c x.cop x.mem = _
  unfold Sha256.next command
  rw [running_busy running,Bool.and_false,if_neg (by decide)]

-- The compression leaves what the transfers use, except when it takes the memory out of its wait.
theorem compression_frame (u : Sha256) :
    (u.compression u.expand).memBufferReg = u.memBufferReg ∧ (u.compression u.expand).msg = u.msg ∧
    (u.compression u.expand).wordCountReg = u.wordCountReg ∧ (u.compression u.expand).blockCountReg = u.blockCountReg ∧
    (u.compression u.expand).blockAddrReg = u.blockAddrReg ∧
    (u.memState ≠ .memWait → (u.compression u.expand).memState = u.memState) := by
  unfold compression
  cases u.stateReg with
  | update =>
    cases mem : u.memState with
    | memIdle => by_cases same : u.ShaBufferReg = u.memBufferReg <;> simp [expand,mem,same]
    | _ => simp [expand,mem]
  | _ => simp [expand]

structure Turn (job : Job c) (d d' f : Nat) (s : State c) (x : Cycle) (q : Sha256) : Prop where
  compressed : Compressed job d d' f s.unit q
  unit : ∃ r, (s.next x).unit = {s.unit.memory c q x.mem with retryReg := r}
  buffer : q.memBufferReg = s.unit.memBufferReg
  msg : q.msg = s.unit.msg
  words : q.wordCountReg = s.unit.wordCountReg
  count : q.blockCountReg = s.unit.blockCountReg
  addr : q.blockAddrReg = s.unit.blockAddrReg
  kept : s.unit.memState ≠ .memWait → q.memState = s.unit.memState

theorem running_turn (running : Running job d f s) (x : Cycle) : ∃ d', Turn job d d' f s x (s.unit.compression s.unit.expand) := by
  obtain ⟨d',compressed⟩ := compressed_step running
  obtain ⟨buffer,msg,words,count,addr,kept⟩ := compression_frame s.unit
  exact ⟨d',compressed,running_unit running,buffer,msg,words,count,addr,kept⟩

theorem unit_fields {u : Sha256}
    (unit : u = {q with retryReg := r, msg := m, wordCountReg := w, blockAddrReg := a, memState := st}) :
    u.memState = st ∧ u.wordCountReg = w ∧ u.blockAddrReg = a ∧ u.msg = m := by
  rw [unit]
  exact ⟨rfl,rfl,rfl,rfl⟩

theorem Turn.running (turn : Turn job d d' f s x q) (running : Running job d f s) (unfinished : d' < job.count)
    (ram : (s.next x).ram = s.ram)
    (unit : (s.next x).unit = {q with retryReg := r, msg := m, wordCountReg := w, blockAddrReg := a, memState := st})
    (stored : ∀ i, d' ≤ i → i < f → ∀ k, m (job.selector i) k = s.unit.msg (job.selector i) k) (fetch : Fetch job d' f (s.next x)) :
    Running job d' f (s.next x) where
  behind := turn.compressed.behind
  ahead := running.ahead.trans (Nat.add_le_add_right turn.compressed.later 2)
  inside := running.inside
  unfinished := unfinished
  limit := running.limit
  ram := ram.trans running.ram
  hash := by
    rw [unit]
    exact turn.compressed.hash
  sha := by
    rw [unit]
    exact turn.compressed.sha
  mem := by
    rw [unit]
    exact turn.buffer.trans running.mem
  count := by
    rw [unit]
    exact turn.count.trans running.count
  stored := by
    rw [unit]
    exact fun i later earlier k inside =>
      (stored i later earlier k).trans (running.stored i (turn.compressed.later.trans later) earlier k inside)
  engine := by
    rw [unit]
    exact engine_congr (q := q) rfl turn.compressed.engine
  fetch := fetch

structure Finished (job : Job c) (s : State c) : Prop where
  resting : Resting s
  idle : s.unit.isIdle = true
  hash : s.unit.hash = job.digest job.count

def left (job : Job c) (d f : Nat) (u : Sha256) : Nat :=
  200*(job.count-f)+200*(job.count-d)+memLeft u+engineLeft u

def Steps (job : Job c) (d f : Nat) (s : State c) (x : Cycle) : Prop :=
  Finished job (s.next x) ∨ ∃ d' f', Running job d' f' (s.next x) ∧
    (left job d' f' (s.next x).unit < left job d f s.unit ∨ (left job d' f' (s.next x).unit = left job d f s.unit ∧ Stalls s x))

theorem bus_quiet (free : s.bus = .free) (quiet : s.unit.master.cmd = .idle) :
    (s.next x).bus = .free ∧ (s.next x).ram = s.ram := by
  constructor
  · simp [free,quiet]
  · simp [free,quiet]

theorem engineLeft_congr {u q : Sha256} (same : u.pipeline = q.pipeline) : engineLeft u = engineLeft q := by
  simp only [pipeline,Prod.mk.injEq] at same
  unfold engineLeft
  rw [same.1,same.2.1]

theorem step_fetched (running : Running job d f s) (mem : s.unit.memState = .memIdle) : Steps job d f s x := by
  obtain ⟨d',turn⟩ := running_turn running x
  have restarts : s.unit.stateReg = .update → (s.unit.compression s.unit.expand).stateReg = .start ∨
      (s.unit.compression s.unit.expand).stateReg = .idle := by
    intro update
    simp only [compression,update,mem]
    split
    case isTrue => exact .inl rfl
    case isFalse => exact .inr rfl
  generalize s.unit.compression s.unit.expand = q at *
  obtain ⟨r,unit⟩ := turn.unit
  have same : s.unit.memory c q x.mem = q := by simp only [memory,mem]
  rw [same] at unit
  have fetch := running.fetch
  simp only [Fetch,mem] at fetch
  obtain ⟨all,none,free⟩ := fetch
  have unfinished := running.unfinished
  obtain ⟨bus,ram⟩ := bus_quiet (x := x) free (by simp [master,mem])
  obtain ⟨after,words,-,-⟩ := unit_fields unit
  have after : (s.next x).unit.memState = .memIdle := after.trans ((turn.kept (by simp [mem])).trans mem)
  have words : (s.next x).unit.wordCountReg = 0 := words.trans (turn.words.trans none)
  have compressed := turn.compressed
  by_cases last : d' = job.count
  · left
    have selectors : (s.next x).unit.memBufferReg = (s.next x).unit.ShaBufferReg := by
      rw [unit]
      rw [turn.buffer,running.mem,compressed.sha,last,all]
    have zero : (s.next x).unit.blockCountReg = 0#32 := by
      rw [unit]
      rw [turn.count,running.count,all,Nat.sub_self]
    have state : (s.next x).unit.stateReg = .idle := by
      have engine := compressed.engine
      have update := (compressed.nearer.resolve_left (by omega)).2.1
      rw [unit]
      rcases restarts update with state | state
      · simp only [Engine,state] at engine
        omega
      · exact state
    exact ⟨⟨.inl state,after,zero,selectors,words,bus⟩,by simp [isIdle,state,after,zero,-State.next],
      by rw [unit,← last]; exact compressed.hash⟩
  · right
    have behind := compressed.behind
    refine ⟨d',f,turn.running running (by omega) ram unit (fun i _ _ k => by rw [turn.msg]) ?_,?_⟩
    · simp only [Fetch,after]
      exact ⟨all,words,bus⟩
    · have memLeft_after : memLeft (s.next x).unit = 0 := by simp only [memLeft,after]
      have engineLeft_after : engineLeft (s.next x).unit = engineLeft q := by rw [unit]; rfl
      have nearer := compressed.nearer
      unfold Sha256.left
      omega

theorem reading_same {u after : Sha256} (reading : Reading job d f u) (later : d ≤ d') (words : after.wordCountReg = u.wordCountReg)
    (addr : after.blockAddrReg = u.blockAddrReg)
    (kept : ∀ k < u.wordCountReg, after.msg (job.selector f) k = u.msg (job.selector f) k) : Reading job d' f after where
  more := reading.more
  room := reading.room.trans (succ_le_succ later)
  few := words ▸ reading.few
  addr := by
    have same : after.inBurst c = u.inBurst c := by rw [inBurst,inBurst,words]
    rw [addr,words,same]
    exact reading.addr
  arrived := by
    rw [words]
    exact fun k below => (kept k below).trans (reading.arrived k below)

theorem reading_begins {u : Sha256} (more : f < job.count) (room : f ≤ d+1) (zero : u.wordCountReg = 0)
    (start : u.blockAddrReg = job.addr+BitVec.ofNat 32 (64*f)) : Reading job d f u ∧ u.inBurst c = 0 := by
  have begins : u.inBurst c = 0 := by rw [inBurst,zero,zero_mod]
  refine ⟨⟨more,room,by omega,?_,?_⟩,begins⟩
  · rw [zero,begins]
    exact start
  · rw [zero]
    exact fun k below => absurd below (not_lt_zero k)

theorem step_waits (running : Running job d f s) (mem : s.unit.memState = .memWait) : Steps job d f s x := by
  obtain ⟨d',turn⟩ := running_turn running x
  have resumed (update : s.unit.stateReg = .update) : (s.unit.compression s.unit.expand).memState = .memReadReqM := by
    simp only [compression,update,mem]
  have waits (other : s.unit.stateReg ≠ .update) : (s.unit.compression s.unit.expand).memState = .memWait := by
    cases state : s.unit.stateReg with
    | update => exact absurd state other
    | _ => simp [compression,state,expand,mem]
  generalize s.unit.compression s.unit.expand = q at *
  obtain ⟨r,unit⟩ := turn.unit
  have same : s.unit.memory c q x.mem = q := by simp only [memory,mem]
  rw [same] at unit
  have fetch := running.fetch
  simp only [Fetch,mem] at fetch
  obtain ⟨more,two,none,start,free⟩ := fetch
  obtain ⟨bus,ram⟩ := bus_quiet (x := x) free (by simp [master,mem])
  obtain ⟨state,words,addr,-⟩ := unit_fields unit
  have zero : (s.next x).unit.wordCountReg = 0 := words.trans (turn.words.trans none)
  have start : (s.next x).unit.blockAddrReg = job.addr+BitVec.ofNat 32 (64*f) := addr.trans (turn.addr.trans start)
  have engineLeft_after : engineLeft (s.next x).unit = engineLeft q := by rw [unit]; rfl
  have behind := turn.compressed.behind
  have follows := turn.running running (by omega) ram unit fun i _ _ k => by rw [turn.msg]
  rcases turn.compressed.nearer with ⟨same,other,closer⟩ | ⟨next,update,closer⟩
  · have after : (s.next x).unit.memState = .memWait := state.trans (waits other)
    refine .inr ⟨d',f,follows ?_,.inl ?_⟩
    · simp only [Fetch,after]
      exact ⟨more,by omega,zero,start,bus⟩
    · have memLeft_after : memLeft (s.next x).unit = 0 := by simp only [memLeft,after]
      unfold Sha256.left
      omega
  · have after : (s.next x).unit.memState = .memReadReqM := state.trans (resumed update)
    obtain ⟨reading,begins⟩ := reading_begins (d := d') more (by omega) zero start
    refine .inr ⟨d',f,follows ?_,.inl ?_⟩
    · simp only [Fetch,after]
      exact ⟨reading,bus,begins⟩
    · have memLeft_after : memLeft (s.next x).unit = 33 := by simp only [memLeft,after,zero]
      unfold Sha256.left
      omega

theorem Turn.steps (turn : Turn job d d' f s x q) (running : Running job d f s) (more : f < job.count)
    (ram : (s.next x).ram = s.ram)
    (unit : (s.next x).unit = {q with retryReg := r, msg := m, wordCountReg := w, blockAddrReg := a, memState := st})
    (stored : ∀ i, d' ≤ i → i < f → ∀ k, m (job.selector i) k = s.unit.msg (job.selector i) k) (fetch : Fetch job d' f (s.next x))
    (closer : memLeft (s.next x).unit < memLeft s.unit ∨ (memLeft (s.next x).unit = memLeft s.unit ∧ Stalls s x)) :
    Steps job d f s x := by
  have behind := turn.compressed.behind
  have nearer := turn.compressed.nearer
  have engineLeft_after : engineLeft (s.next x).unit = engineLeft q := by
    rw [unit]
    exact engineLeft_congr rfl
  refine .inr ⟨d',f,turn.running running (by omega) ram unit stored fetch,?_⟩
  unfold Sha256.left
  rcases closer with closer | ⟨same,stalls⟩
  · exact .inl (by omega)
  · by_cases moved : 200*(job.count-d')+engineLeft q < 200*(job.count-d)+engineLeft s.unit
    · exact .inl (by omega)
    · exact .inr ⟨by omega,stalls⟩

theorem step_requests (running : Running job d f s) (mem : s.unit.memState = .memReadReqM) : Steps job d f s x := by
  obtain ⟨d',turn⟩ := running_turn running x
  generalize s.unit.compression s.unit.expand = q at *
  obtain ⟨r,unit⟩ := turn.unit
  have fetch := running.fetch
  simp only [Fetch,mem] at fetch
  obtain ⟨reading,free,begins⟩ := fetch
  have command : s.unit.master = ⟨.rd,s.unit.blockAddrReg,0#32,false⟩ := by simp only [master,mem]
  have ram : (s.next x).ram = s.ram := by simp [free,command]
  have same (i : Nat) (_ : d' ≤ i) (_ : i < f) (k : Nat) : q.msg (job.selector i) k = s.unit.msg (job.selector i) k := by rw [turn.msg]
  have still (words : (s.next x).unit.wordCountReg = q.wordCountReg) (addr : (s.next x).unit.blockAddrReg = q.blockAddrReg)
      (msg : (s.next x).unit.msg = q.msg) : Reading job d' f (s.next x).unit :=
    reading_same reading turn.compressed.later (words.trans turn.words) (addr.trans turn.addr) fun k _ => by rw [msg,turn.msg]
  cases accepted : x.mem.cmdAccept with
  | false =>
    have taken : s.unit.memory c q x.mem = q := by simp [memory,mem,accepted]
    rw [taken] at unit
    obtain ⟨after,words,addr,msg⟩ := unit_fields unit
    have after := after.trans ((turn.kept (by simp [mem])).trans mem)
    have bus : (s.next x).bus = .free := by simp [free,accepted]
    refine turn.steps running reading.more ram unit same ?_ (.inr ⟨?_,?_⟩)
    · simp only [Fetch,after]
      exact ⟨still words addr msg,bus,by rw [inBurst,words,turn.words]; exact begins⟩
    · simp only [memLeft,after,mem,words,turn.words]
    · exact .inl ⟨by simp [command],accepted⟩
  | true =>
    have taken : s.unit.memory c q x.mem = {q with memState := .memReadM} := by simp [memory,mem,accepted]
    rw [taken] at unit
    obtain ⟨after,words,addr,msg⟩ := unit_fields unit
    have bus : (s.next x).bus = .reading (s.unit.blockAddrReg.setWidth _) 0 := by
      simp [free,accepted,command]
    refine turn.steps running reading.more ram unit same ?_ (.inl ?_)
    · simp only [Fetch,after]
      refine ⟨still words addr msg,?_⟩
      rw [bus,addr,turn.addr,inBurst,words,turn.words]
      exact congrArg _ begins.symm
    · simp only [memLeft,after,mem,words,turn.words]
      omega

theorem other_buffer (room : f ≤ d+1) (later : d ≤ i) (earlier : i < f) : job.selector i ≠ job.selector f := by
  obtain rfl : f = i+1 := by omega
  rw [Job.selector_succ]
  cases job.selector i <;> decide

-- A word that arrives, or whatever the port shows instead, goes to the buffer that is being filled.
def received (u : Sha256) (data : BitVec 32) : Bool → Nat → BitVec 32 :=
  fun buffer i => if buffer = u.memBufferReg ∧ i = u.wordCountReg then data else u.msg buffer i

theorem received_other (running : Running job d f s) (room : f ≤ d'+1) (data : BitVec 32) (i : Nat) (later : d' ≤ i)
    (earlier : i < f) (k : Nat) : received s.unit data (job.selector i) k = s.unit.msg (job.selector i) k := by
  unfold received
  rw [if_neg]
  rw [running.mem]
  exact fun both => other_buffer room later earlier both.1

theorem received_earlier (data : BitVec 32) (below : k < s.unit.wordCountReg) (buffer : Bool) :
    received s.unit data buffer k = s.unit.msg buffer k := by
  unfold received
  rw [if_neg fun both => absurd both.2 below.ne]

theorem received_now (running : Running job d f s) (reading : Reading job d f s.unit)
    (bus : s.bus = .reading (s.unit.blockAddrReg.setWidth _) (s.unit.inBurst c)) (answers : Answers s x.mem)
    (upTo : k < s.unit.wordCountReg+1) : received s.unit x.mem.data (job.selector f) k = job.block f k := by
  rcases Nat.lt_succ_iff_lt_or_eq.mp upTo with below | rfl
  · rw [received_earlier _ below]
    exact reading.arrived k below
  · have inside : s.unit.inBurst c ≤ s.unit.wordCountReg := mod_le _ _
    have data : x.mem.data = s.ram (beatAddr (s.unit.blockAddrReg.setWidth _) (s.unit.inBurst c)) := by
      simpa only [Answers,bus] using answers
    unfold received
    rw [if_pos ⟨running.mem.symm,rfl⟩,data,running.ram,beat_block job f _ _ reading.addr,Nat.sub_add_cancel inside]

theorem burst_ends (c : Config) (u : Sha256) (few : u.wordCountReg < 16) :
    (u.inBurst c < c.burstLength-1 → u.counted = u.wordCountReg+1 ∧ (u.wordCountReg+1) % c.burstLength = u.inBurst c+1 ∧
      u.inBurst c+1 ≠ c.burstLength) ∧
    (¬u.inBurst c < c.burstLength-1 → u.inBurst c+1 = c.burstLength ∧
      (u.msgBurst c < 16/c.burstLength-1 → u.counted = u.wordCountReg+1 ∧ (u.wordCountReg+1) % c.burstLength = 0) ∧
      (¬u.msgBurst c < 16/c.burstLength-1 → u.wordCountReg = 15)) := by
  unfold inBurst msgBurst counted
  rcases burst_cases c with length | length | length <;> rw [length] <;> omega

theorem counted_few (u : Sha256) (counts : u.counted = u.wordCountReg+1) : u.wordCountReg+1 < 16 := by
  have bound : u.counted < 16 := mod_lt _ (by decide)
  omega

theorem reading_burst (reading : Reading job d f s.unit) (ended : s.unit.inBurst c+1 = c.burstLength) :
    s.unit.blockAddrReg+burstAddrOffset c = job.addr+BitVec.ofNat 32 (64*f+4*(s.unit.wordCountReg+1)) := by
  have inside : s.unit.inBurst c ≤ s.unit.wordCountReg := mod_le _ _
  rw [reading.addr,burstAddrOffset,BitVec.add_assoc,← BitVec.ofNat_add]
  congr 2
  omega

theorem engine_more {u : Sha256} (engine : Engine job d f u) (active : d < f) : Engine job d (f+1) u := by
  unfold Engine at *
  cases state : u.stateReg with
  | idle | waiting =>
    simp only [state] at engine
    omega
  | restart => simp only [state] at engine
  | start | compress | update =>
    simp only [state] at engine ⊢
    exact ⟨by omega,engine.2⟩

theorem left_bounds (u : Sha256) : engineLeft u ≤ 66 ∧ memLeft u ≤ 33 := by
  unfold engineLeft memLeft
  constructor
  · split <;> omega
  · split <;> omega

def rests (state : ShaState) : Prop := state = .idle ∨ state = .update ∨ state = .waiting

instance (state : ShaState) : Decidable (rests state) := inferInstanceAs (Decidable (_ ∨ _ ∨ _))

theorem blockRead_eq (u q : Sha256) :
    u.blockRead q =
      {q with
        memBufferReg := !u.memBufferReg
        wordCountReg := 0
        blockCountReg := u.blockCountReg-1#32
        memState := if u.blockCountReg = 1#32 then .memIdle else if rests u.stateReg then .memReadReqM else .memWait
        idxReg := if rests u.stateReg then 0 else q.idxReg
        stateReg := if rests u.stateReg then .start else q.stateReg} := by
  unfold blockRead rests
  by_cases rest : u.stateReg = .idle ∨ u.stateReg = .update ∨ u.stateReg = .waiting
  · by_cases one : u.blockCountReg = 1#32 <;> simp only [rest,one,if_true,if_false]
  · by_cases one : u.blockCountReg = 1#32 <;> simp only [rest,one,if_true,if_false]

theorem count_one (running : Running job d f s) (more : f < job.count) : s.unit.blockCountReg = 1#32 ↔ f+1 = job.count := by
  have limit := running.limit
  rw [running.count]
  constructor
  · intro one
    have value := congrArg BitVec.toNat one
    rw [BitVec.toNat_ofNat,BitVec.toNat_ofNat] at value
    omega
  · intro last
    rw [show job.count-f = 1 by omega]

-- While a block arrives, an engine that rests has compressed all blocks before it, and an engine that does not all but
-- one.
theorem rests_current (running : Running job d f s) (compressed : Compressed job d d' f s.unit q) (room : f ≤ d+1)
    (rest : rests s.unit.stateReg) : d' = f := by
  have engine := running.engine
  rcases compressed.nearer with ⟨same,other,-⟩ | ⟨next,update,-⟩
  · rcases rest with state | state | state
    · simp only [Engine,state] at engine
      omega
    · exact absurd state other
    · simp only [Engine,state] at engine
      omega
  · simp only [Engine,update] at engine
    omega

theorem active_behind (running : Running job d f s) (compressed : Compressed job d d' f s.unit q) (room : f ≤ d+1)
    (active : ¬rests s.unit.stateReg) : d' = d ∧ f = d+1 := by
  have engine := running.engine
  rcases compressed.nearer with ⟨same,other,-⟩ | ⟨-,update,-⟩
  · refine ⟨same,?_⟩
    cases state : s.unit.stateReg with
    | idle | update | waiting => exact absurd (by rw [state]; simp [rests]) active
    | restart => simp [Engine,state] at engine
    | start | compress =>
      simp only [Engine,state] at engine
      omega
  · exact absurd (.inr (.inl update)) active

section Read
variable (turn : Turn job d d' f s x q) (running : Running job d f s) (reading : Reading job d f s.unit)
  (bus : s.bus = .reading (s.unit.blockAddrReg.setWidth _) (s.unit.inBurst c))
include turn running reading bus

theorem Turn.reads
    (unit : (s.next x).unit =
      {q with retryReg := r, msg := received s.unit x.mem.data, wordCountReg := w, blockAddrReg := a, memState := st})
    (fetch : Fetch job d' f (s.next x))
    (closer : memLeft (s.next x).unit < memLeft s.unit ∨ (memLeft (s.next x).unit = memLeft s.unit ∧ Stalls s x)) :
    Steps job d f s x := by
  have room := reading.room.trans (succ_le_succ turn.compressed.later)
  exact turn.steps running reading.more (by simp [bus]) unit
    (fun i later earlier k => received_other running room _ i later earlier k) fetch closer

variable (mem : s.unit.memState = .memReadM)
include mem

theorem Turn.silent (silent : x.mem.resp ≠ .dva) : Steps job d f s x := by
  obtain ⟨r,unit⟩ := turn.unit
  have same : s.unit.memory c q x.mem = {q with msg := received s.unit x.mem.data} := by
    simp only [memory,mem]
    rw [if_neg silent]
    rfl
  rw [same] at unit
  obtain ⟨after,words,addr,msg⟩ := unit_fields unit
  have after := after.trans ((turn.kept (by simp [mem])).trans mem)
  have words := words.trans turn.words
  have addr := addr.trans turn.addr
  have bus_after : (s.next x).bus = s.bus := by simp [bus,silent]
  refine turn.reads running reading bus unit ?_ (.inr ⟨?_,?_⟩)
  · simp only [Fetch,after]
    refine ⟨reading_same reading turn.compressed.later words addr fun k below => ?_,?_⟩
    · rw [msg]
      exact received_earlier _ below _
    · rw [bus_after,addr,inBurst,words]
      exact bus
  · simp only [memLeft,after,mem,words]
  · refine .inr ?_
    rw [bus]
    exact silent

variable (answers : Answers s x.mem) (dva : x.mem.resp = .dva)
include answers dva

theorem Turn.beat (within : s.unit.inBurst c < c.burstLength-1) : Steps job d f s x := by
  obtain ⟨r,unit⟩ := turn.unit
  have room : f ≤ d'+1 := reading.room.trans (succ_le_succ turn.compressed.later)
  obtain ⟨counts,beat,unended⟩ := (burst_ends c s.unit reading.few).1 within
  have small := counted_few s.unit counts
  have taken : s.unit.memory c q x.mem = {q with msg := received s.unit x.mem.data, wordCountReg := s.unit.counted} := by
    simp only [memory,mem]
    rw [if_pos dva,if_pos within]
    rfl
  rw [taken] at unit
  obtain ⟨after,words,addr,msg⟩ := unit_fields unit
  have after := after.trans ((turn.kept (by simp [mem])).trans mem)
  have words := words.trans counts
  have addr := addr.trans turn.addr
  have beat_after : (s.next x).unit.inBurst c = s.unit.inBurst c+1 := by rw [inBurst,words,beat]
  have bus_after : (s.next x).bus = .reading (s.unit.blockAddrReg.setWidth _) (s.unit.inBurst c+1) := by
    simp [bus,dva,unended]
  refine turn.reads running reading bus unit ?_ (.inl ?_)
  · simp only [Fetch,after]
    refine ⟨⟨reading.more,room,by rw [words]; exact small,?_,?_⟩,by rw [bus_after,addr,beat_after]⟩
    · rw [addr,words,beat_after,Nat.add_sub_add_right]
      exact reading.addr
    · rw [words,msg]
      exact fun _ => received_now running reading bus answers
  · simp only [memLeft,after,mem]
    omega

theorem Turn.burst (last : ¬s.unit.inBurst c < c.burstLength-1) (more : s.unit.msgBurst c < 16/c.burstLength-1) :
    Steps job d f s x := by
  obtain ⟨r,unit⟩ := turn.unit
  have room : f ≤ d'+1 := reading.room.trans (succ_le_succ turn.compressed.later)
  obtain ⟨ended,continues,-⟩ := (burst_ends c s.unit reading.few).2 last
  obtain ⟨counts,beat⟩ := continues more
  have small := counted_few s.unit counts
  have taken : s.unit.memory c q x.mem =
      {q with
        msg := received s.unit x.mem.data
        blockAddrReg := s.unit.blockAddrReg+burstAddrOffset c
        wordCountReg := s.unit.counted
        memState := .memReadReqM} := by
    simp only [memory,mem]
    rw [if_pos dva,if_neg last,if_pos more]
    rfl
  rw [taken] at unit
  obtain ⟨after,words,addr,msg⟩ := unit_fields unit
  have words := words.trans counts
  have beat_after : (s.next x).unit.inBurst c = 0 := by rw [inBurst,words,beat]
  have bus_after : (s.next x).bus = .free := by simp [bus,dva,ended]
  refine turn.reads running reading bus unit ?_ (.inl ?_)
  · simp only [Fetch,after]
    refine ⟨⟨reading.more,room,by rw [words]; exact small,?_,?_⟩,bus_after,beat_after⟩
    · rw [addr,words,beat_after]
      exact reading_burst reading ended
    · rw [words,msg]
      exact fun _ => received_now running reading bus answers
  · simp only [memLeft,after,mem]
    omega

theorem Turn.block (last : ¬s.unit.inBurst c < c.burstLength-1) (final : ¬s.unit.msgBurst c < 16/c.burstLength-1) :
    Steps job d f s x := by
  obtain ⟨r,unit⟩ := turn.unit
  have compressed := turn.compressed
  have more := reading.more
  have room := reading.room
  have later := compressed.later
  have behind := compressed.behind
  obtain ⟨ended,-,finishes⟩ := (burst_ends c s.unit reading.few).2 last
  have fifteen := finishes final
  have taken : s.unit.memory c q x.mem = s.unit.blockRead
      {q with
        msg := received s.unit x.mem.data
        blockAddrReg := s.unit.blockAddrReg+burstAddrOffset c} := by
    simp only [memory,mem]
    rw [if_pos dva,if_neg last,if_neg final]
    rfl
  rw [taken,blockRead_eq] at unit
  have bus_after : (s.next x).bus = .free := by simp [bus,dva,ended]
  have addr_after : (s.next x).unit.blockAddrReg = job.addr+BitVec.ofNat 32 (64*(f+1)) := by
    rw [unit]
    exact (reading_burst reading ended).trans (by rw [fifteen]; rfl)
  have zero : (s.next x).unit.wordCountReg = 0 := by rw [unit]
  have memory_after : (s.next x).unit.memState =
      if f+1 = job.count then .memIdle else if rests s.unit.stateReg then .memReadReqM else .memWait := by
    rw [unit]
    simp only [count_one running more]
  have current := rests_current running compressed room
  have busy := active_behind running compressed room
  refine .inr ⟨d',f+1,⟨by omega,by omega,more,by omega,running.limit,?_,?_,?_,?_,?_,?_,?_,?_⟩,.inl ?_⟩
  · exact (show (s.next x).ram = s.ram by simp [bus]).trans running.ram
  · rw [unit]
    exact compressed.hash
  · rw [unit]
    exact compressed.sha
  · rw [unit,Job.selector_succ,← running.mem]
  · rw [unit]
    rw [running.count,show job.count-f = job.count-(f+1)+1 by omega,BitVec.ofNat_add,BitVec.add_sub_cancel]
  · have msg_after : (s.next x).unit.msg = received s.unit x.mem.data := by rw [unit]
    intro i since upTo k inside
    rw [msg_after]
    rcases Nat.lt_succ_iff_lt_or_eq.mp upTo with earlier | rfl
    · rw [received_other running (by omega) _ i since earlier]
      exact running.stored i (by omega) earlier k inside
    · exact received_now running reading bus answers (by omega)
  · by_cases rest : rests s.unit.stateReg
    · have state : (s.next x).unit.stateReg = .start := by rw [unit]; simp only [rest,if_true]
      have index : (s.next x).unit.idxReg = 0 := by rw [unit]; simp only [rest,if_true]
      simp only [Engine,state,index]
      exact ⟨by omega,trivial⟩
    · obtain ⟨same,next⟩ := busy rest
      refine engine_congr (q := q) ?_ (engine_more compressed.engine (by omega))
      rw [unit]
      simp only [pipeline,rest,if_false]
  · by_cases count : f+1 = job.count
    · rw [if_pos count] at memory_after
      simp only [Fetch,memory_after]
      exact ⟨count,zero,bus_after⟩
    · rw [if_neg count] at memory_after
      by_cases rest : rests s.unit.stateReg
      · have caught := current rest
        obtain ⟨reading,begins⟩ := reading_begins (d := d') (by omega) (by omega) zero addr_after
        rw [if_pos rest] at memory_after
        simp only [Fetch,memory_after]
        exact ⟨reading,bus_after,begins⟩
      · rw [if_neg rest] at memory_after
        obtain ⟨same,next⟩ := busy rest
        simp only [Fetch,memory_after]
        exact ⟨by omega,by omega,zero,addr_after,bus_after⟩
  · have bounds := left_bounds (s.next x).unit
    unfold Sha256.left
    omega
end Read

theorem running_step (running : Running job d f s) (admitted : (system c).admits s x) : Steps job d f s x := by
  have fetch := running.fetch
  cases mem : s.unit.memState with
  | memIdle => exact step_fetched running mem
  | memWait => exact step_waits running mem
  | memReadReqM => exact step_requests running mem
  | memReadM =>
    obtain ⟨d',turn⟩ := running_turn running x
    simp only [Fetch,mem] at fetch
    obtain ⟨reading,bus⟩ := fetch
    by_cases dva : x.mem.resp = .dva
    · have answers := admitted.1 dva
      by_cases within : s.unit.inBurst c < c.burstLength-1
      · exact turn.beat running reading bus mem answers dva within
      · by_cases more : s.unit.msgBurst c < 16/c.burstLength-1
        · exact turn.burst running reading bus mem answers dva within more
        · exact turn.block running reading bus mem answers dva within more
    · exact turn.silent running reading bus mem dva
  | memReadReqH | memReadH | memWriteReqH | memWriteH => simp [Fetch,mem] at fetch
end Step
end Invariant
end Patmos.Sha256
