import Mathlib.Data.Nat.Size
import Patmos.CacheWay
namespace Patmos
open BurstMemory

inductive RefillState where
  | idle
  | hold
  | fill
  | respond
  deriving DecidableEq, Repr

-- The registers with which the write-through data caches handle a read miss: the request is held, the line is filled
-- beat by beat, and the requested beat is passed on at the end.
structure Refill where
  masterReg : OcpCoreMasterSignals 4
  fillReg : Bool
  wrAddrReg : Nat
  wrDataReg : Word 4
  stateReg : RefillState
  burstCntReg : Nat
  missIndexReg : Nat
  slaveReg : OcpSlaveSignals 4

-- The width of the literal lineBits-2, from which missIndexReg takes its type.
def Geometry.missIndexWidth (g : Geometry) : Nat := max 1 g.wordBits.size

namespace Refill
section
variable (g : Geometry) (r : Refill) (miss : Bool) (m : OcpCoreMasterSignals 4) (s : OcpBurstSlaveSignals 4)

def slaveM : OcpBurstMasterSignals 4 :=
  {OcpBurstMasterSignals.quiet with
    cmd := if miss ∨ r.stateReg = .hold then .rd else .idle
    addr := g.base r.masterReg.addr*4}

def masterS (hit : OcpSlaveSignals 4) : OcpSlaveSignals 4 := if r.stateReg = .respond then r.slaveReg else hit

def stmsk : ByteEn 4 := fun i => r.masterReg.cmd = .wr && r.masterReg.byteEn i

def beat : Bool := r.stateReg = .fill ∧ s.resp ≠ .null

def next : Refill where
  masterReg := {m with addr := if miss ∨ r.stateReg = .hold ∨ r.stateReg = .fill then r.masterReg.addr else m.addr}
  fillReg := r.beat s
  wrAddrReg := if r.stateReg = .fill then g.index r.masterReg.addr*g.words+r.burstCntReg else g.cell m.addr
  wrDataReg := if r.beat s then s.data else m.data
  stateReg :=
    let request : RefillState := if s.cmdAccept then .fill else .hold
    match r.stateReg with
    | .idle => if miss then request else .idle
    | .hold => request
    | .fill => if r.beat s ∧ r.burstCntReg = g.words-1 then .respond else if miss then request else .fill
    | .respond => .idle
  burstCntReg := if r.beat s then (r.burstCntReg+1) % g.words else r.burstCntReg
  missIndexReg := if miss then g.offset r.masterReg.addr % 2^g.missIndexWidth else r.missIndexReg
  slaveReg := if r.beat s ∧ r.burstCntReg = r.missIndexReg then ⟨s.resp,s.data⟩ else r.slaveReg

def port (hit filling allocate drop invalidate : Bool) : Way.Port where
  lookup := m.addr
  rdAddr := g.cell m.addr
  wrEna i := r.fillReg && filling || hit && r.stmsk i
  wrAddr := r.wrAddrReg
  wrData := r.wrDataReg
  addr := r.masterReg.addr
  allocate := allocate
  drop := drop
  invalidate := invalidate

def writeThrough (ram : Nat → Word 4) : Nat → Word 4 :=
  if r.masterReg.cmd = .wr then store ram r.masterReg.addr r.masterReg.data r.masterReg.byteEn else ram

section
variable (core : Option Nat) (m : OcpCoreMasterSignals 4) (s : OcpSlaveSignals 4)

-- The core issues one request at a time. A read is outstanding until it is answered; a write is answered beside the
-- cache.
def Offers : Prop := core = none ∨ s.resp ≠ .null ∨ m.cmd = .idle

instance (core : Option Nat) (m : OcpCoreMasterSignals 4) (s : OcpSlaveSignals 4) : Decidable (Offers core m s) :=
  inferInstanceAs (Decidable (_ ∨ _ ∨ _))

def coreNext : Option Nat := if m.cmd = .rd then some m.addr else if s.resp = .null then core else none

structure Outstanding : Prop where
  quiet : r.masterReg.cmd = .idle
  read : core = some r.masterReg.addr
  wanted : r.missIndexReg = g.offset r.masterReg.addr % 2^g.missIndexWidth
end

structure Answer (ram : Nat → Word 4) : Prop where
  given : r.slaveReg.resp ≠ .null
  word : r.slaveReg.resp = .dva → r.slaveReg.data = ram (g.base r.masterReg.addr + r.missIndexReg)
end

inductive Progress (g : Geometry) (ram : Nat → Word 4) (r : Refill) : BurstMemory.Phase → Option Nat → Prop where
  | idle : r.stateReg = .idle → r.burstCntReg = 0 → r.fillReg = false →
      (r.masterReg.cmd ≠ .idle → r.wrAddrReg = g.cell r.masterReg.addr ∧ r.wrDataReg = r.masterReg.data) →
      Progress g ram r .idle (if r.masterReg.cmd = .rd then some r.masterReg.addr else none)
  | hold : r.stateReg = .hold → r.burstCntReg = 0 → r.fillReg = false → Outstanding g r core → Progress g ram r .idle core
  | fill : r.stateReg = .fill → r.burstCntReg < g.words →
      (r.fillReg = true → 0 < r.burstCntReg ∧ r.wrAddrReg = g.index r.masterReg.addr*g.words+(r.burstCntReg-1)) →
      Outstanding g r core → (r.missIndexReg < r.burstCntReg → Answer g r ram) →
      Progress g ram r (.read (g.base r.masterReg.addr*4) r.burstCntReg) core
  | respond : r.stateReg = .respond → r.burstCntReg = 0 → r.fillReg = true →
      r.wrAddrReg = g.index r.masterReg.addr*g.words+(g.words-1) → Outstanding g r core → Answer g r ram →
      Progress g ram r .idle core

attribute [local simp] next

section Step
variable {g : Geometry} {r : Refill} {m : OcpCoreMasterSignals 4} {s : OcpBurstSlaveSignals 4} {miss : Bool}
  {memory : BurstMemory.State 4} {core : Option Nat} {hit : OcpSlaveSignals 4} {ram : Nat → Word 4}

theorem Progress.start (state : r.stateReg = .idle) (count : r.burstCntReg = 0) (empty : r.fillReg = false)
    (quiet : r.masterReg.cmd = .idle) : Progress g ram r .idle none := by
  rw [show none = if r.masterReg.cmd = .rd then some r.masterReg.addr else none by simp [quiet]]
  exact .idle state count empty (absurd quiet)

theorem Progress.quiet (progress : Progress g ram r phase core) (busy : r.stateReg ≠ .idle) :
    r.masterReg.cmd = .idle := by
  cases progress with
  | idle state => exact absurd state busy
  | hold _ _ _ outstanding | fill _ _ _ outstanding _ | respond _ _ _ _ outstanding _ => exact outstanding.quiet

theorem Progress.empty (progress : Progress g ram r phase core) (idle : r.stateReg = .idle) :
    r.fillReg = false := by
  cases progress with
  | idle _ _ empty => exact empty
  | hold state | fill state | respond state => exact absurd (idle.symm.trans state) (by decide)

theorem waiting_quiet (reading : core = some addr) (offers : Offers core m answer) (silent : answer.resp = .null) :
    m.cmd = .idle ∧ coreNext core m answer = some addr := by
  have quiet : m.cmd = .idle := (offers.resolve_left (by simp [reading])).resolve_left (fun given => given silent)
  exact ⟨quiet,by simp [coreNext,quiet,silent,reading]⟩

theorem request_step (state : r.stateReg = .hold ∨ r.stateReg = .idle ∧ miss = true) (count : r.burstCntReg = 0)
    (idle : memory.phase = .idle) (quiet : m.cmd = .idle) (reading : core' = some r.masterReg.addr)
    (wanted : miss = false → r.missIndexReg = g.offset r.masterReg.addr % 2^g.missIndexWidth) :
    Progress g ram (r.next g miss m s) (memory.next g.words (r.slaveM g miss) s).phase core' := by
  have command : (r.slaveM g miss).cmd = .rd := by
    rcases state with hold | ⟨_,missing⟩
    · simp [slaveM,hold]
    · simp [slaveM,missing]
  have address : (r.next g miss m s).masterReg.addr = r.masterReg.addr := by
    rcases state with hold | ⟨_,missing⟩
    · simp [hold]
    · simp [missing]
  have outstanding : Outstanding g (r.next g miss m s) core' := by
    refine ⟨quiet,by rw [address,reading],?_⟩
    rw [address]
    cases miss with
    | false => exact wanted rfl
    | true => rfl
  have still : r.beat s = false := by
    rcases state with hold | ⟨idle,_⟩
    · simp [beat,hold]
    · simp [beat,idle]
  have fresh : (r.next g miss m s).burstCntReg = 0 := by simp [still,count]
  have empty : (r.next g miss m s).fillReg = false := still
  cases accept : s.cmdAccept with
  | false =>
    have waits : (r.next g miss m s).stateReg = .hold := by
      rcases state with hold | ⟨idle,missing⟩
      · simp [hold,accept]
      · simp [idle,missing,accept]
    rw [next_requested g.words s idle command,accept]
    exact .hold waits fresh empty outstanding
  | true =>
    have begins : (r.next g miss m s).stateReg = .fill := by
      rcases state with hold | ⟨idle,missing⟩
      · simp [hold,accept]
      · simp [idle,missing,accept]
    have taken : (memory.next g.words (r.slaveM g miss) s).phase =
        .read (g.base (r.next g miss m s).masterReg.addr*4) (r.next g miss m s).burstCntReg := by
      rw [next_requested g.words s idle command,accept,address,fresh]
      rfl
    rw [taken]
    refine .fill begins (fresh ▸ g.words_pos) (fun filling => ?_) outstanding (fun early => ?_)
    · rw [empty] at filling
      cases filling
    · rw [fresh] at early
      exact absurd early (Nat.not_lt_zero _)

theorem fill_step (state : r.stateReg = .fill) (busy : miss = false) (inside : r.burstCntReg < g.words)
    (outstanding : Outstanding g r core) (answered : r.missIndexReg < r.burstCntReg → Answer g r memory.ram)
    (reading : memory.phase = .read (g.base r.masterReg.addr*4) r.burstCntReg)
    (answers : memory.Answers (r.slaveM g miss) s) (quiet : m.cmd = .idle) :
    Progress g memory.ram (r.next g miss m s) (memory.next g.words (r.slaveM g miss) s).phase core := by
  subst busy
  have address : (r.next g false m s).masterReg.addr = r.masterReg.addr := by simp [state]
  have kept : Outstanding g (r.next g false m s) core := ⟨quiet,by rw [address,outstanding.read],by rw [address]; exact outstanding.wanted⟩
  rw [next_beat g.words _ s reading]
  by_cases silent : s.resp = .null
  · have still : r.beat s = false := by simp [beat,silent]
    have same : (r.next g false m s).burstCntReg = r.burstCntReg := by simp [still]
    rw [if_pos silent,← address,← same]
    refine .fill (by simp [state,still]) (by rw [same]; exact inside) (fun filling => ?_) kept fun early => ?_
    · rw [show (r.next g false m s).fillReg = false from still] at filling
      cases filling
    · obtain ⟨given,word⟩ := answered (by simpa [still] using early)
      exact ⟨by simpa [still] using given,by simpa [still,state] using word⟩
  · have arrives : r.beat s = true := by simp [beat,state,silent]
    have word : s.resp = .dva → s.data = memory.ram (g.base r.masterReg.addr + r.burstCntReg) := by
      simp only [BurstMemory.State.Answers,reading] at answers
      intro dva
      rw [answers.2 dva,Nat.mul_div_cancel _ (by decide)]
    have answer : r.missIndexReg < r.burstCntReg+1 → Answer g (r.next g false m s) memory.ram := by
      intro early
      by_cases here : r.burstCntReg = r.missIndexReg
      · refine ⟨by simpa [arrives,here] using silent,?_⟩
        simpa [arrives,here,state] using word
      · obtain ⟨given,data⟩ := answered (by omega)
        exact ⟨by simpa [here] using given,by simpa [here,state] using data⟩
    have filling : (r.next g false m s).fillReg = true := arrives
    have target : (r.next g false m s).wrAddrReg = g.index r.masterReg.addr*g.words+r.burstCntReg := by simp [state]
    rw [if_neg silent]
    by_cases last : r.burstCntReg+1 = g.words
    · have done : (r.next g false m s).stateReg = .respond := by simp [state,arrives,← last]
      have wraps : (r.next g false m s).burstCntReg = 0 := by simp [arrives,last]
      rw [if_pos last]
      refine .respond done wraps filling ?_ kept (answer ?_)
      · rw [target,address,← last]
        rfl
      · have small := Nat.lt_of_le_of_lt (Nat.mod_le _ (2^g.missIndexWidth)) (g.offset_lt r.masterReg.addr)
        rw [outstanding.wanted,last]
        exact small
    · have count : (r.next g false m s).burstCntReg = r.burstCntReg+1 := by
        simp only [next,arrives]
        exact Nat.mod_eq_of_lt (by omega)
      have more : (r.next g false m s).stateReg = .fill := by
        simp only [next,state]
        rw [if_neg (by omega)]
        rfl
      rw [if_neg last,← address,← count]
      refine .fill more (by omega) (fun _ => ⟨by omega,?_⟩) kept fun early => answer ?_
      · rw [target,count,address]
        rfl
      · rw [count] at early
        simpa using early

theorem settle_step (state : (r.next g miss m s).stateReg = .idle) (count : r.burstCntReg = 0) (still : r.beat s = false)
    (free : r.stateReg ≠ .fill ∧ r.stateReg ≠ .hold ∧ miss = false) (idle : memory.phase = .idle)
    (ended : coreNext core m answer = if m.cmd = .rd then some m.addr else none) :
    Progress g ram (r.next g miss m s) (memory.next g.words (r.slaveM g miss) s).phase (coreNext core m answer) := by
  obtain ⟨notFill,notHold,rfl⟩ := free
  have quiet : (r.slaveM g false).cmd = .idle := by simp [slaveM,notHold]
  have latched : (r.next g false m s).masterReg = m := by simp [notHold,notFill]
  have settled : Progress g ram (r.next g false m s) .idle
      (if (r.next g false m s).masterReg.cmd = .rd then some (r.next g false m s).masterReg.addr else none) := by
    refine .idle state (by simp [still,count]) still fun _ => ?_
    rw [latched]
    simp [notFill,still]
  rw [latched] at settled
  rw [next_unused g.words s idle quiet,idle,ended]
  exact settled

theorem progress_step (progress : Progress g memory.ram r memory.phase core)
    (missing : miss = true → r.masterReg.cmd = .rd) (hitting : hit.resp ≠ .null ↔ r.masterReg.cmd = .rd ∧ miss = false)
    (offers : Offers core m (r.masterS hit)) (answers : memory.Answers (r.slaveM g miss) s)
    (unchanged : r.masterReg.cmd ≠ .wr → ram = memory.ram) :
    Progress g ram (r.next g miss m s) (memory.next g.words (r.slaveM g miss) s).phase (coreNext core m (r.masterS hit)) := by
  have idle (quiet : r.masterReg.cmd = .idle) : hit.resp = .null ∧ miss = false := by
    rw [quiet] at missing hitting
    exact ⟨by_contra fun given => absurd (hitting.1 given).1 (by decide),Bool.eq_false_iff.mpr fun given => nomatch missing given⟩
  generalize phase : memory.phase = p at progress
  cases progress with
  | idle state count empty latched =>
    have seen : r.masterS hit = hit := by simp [masterS,state]
    rw [seen] at offers ⊢
    cases miss with
    | true =>
      have read := missing rfl
      have silent : hit.resp = .null := by
        by_contra given
        exact absurd (hitting.1 given).2 (by decide)
      have pending := @waiting_quiet m _ r.masterReg.addr hit (by simp [read]) offers silent
      exact request_step (.inr ⟨state,rfl⟩) count phase pending.1 pending.2 (by simp)
    | false =>
      refine settle_step (by simp [state]) count (by simp [beat,state]) (by simp [state]) phase ?_
      by_cases read : r.masterReg.cmd = .rd
      · have given := hitting.2 ⟨read,rfl⟩
        simp [coreNext,given]
      · simp [coreNext,read]
  | hold state count empty outstanding =>
    have silent : (r.masterS hit).resp = .null := by simp [masterS,state,idle outstanding.quiet]
    obtain ⟨quiet,same⟩ := waiting_quiet outstanding.read offers silent
    exact request_step (.inl state) count phase quiet same fun _ => outstanding.wanted
  | fill state inside writing outstanding answered =>
    have busy := (idle outstanding.quiet).2
    have silent : (r.masterS hit).resp = .null := by simp [masterS,state,idle outstanding.quiet]
    obtain ⟨quiet,same⟩ := waiting_quiet outstanding.read offers silent
    rw [unchanged (by simp [outstanding.quiet]),same,← outstanding.read]
    exact fill_step state busy inside outstanding answered phase answers quiet
  | respond state count writing target outstanding answer =>
    have busy := (idle outstanding.quiet).2
    have seen : r.masterS hit = r.slaveReg := by simp [masterS,state]
    refine settle_step (by simp [state]) count (by simp [beat,state]) (by simp [state,busy]) phase ?_
    simp [coreNext,seen,answer.given]

theorem beat_word {master : OcpBurstMasterSignals 4} (reading : memory.phase = .read (g.base addr*4) count)
    (answers : memory.Answers master s) (arrives : r.beat s = true) (good : s.resp ≠ .err) :
    s.data = memory.ram (g.base addr + count) := by
  have answered : s.resp ≠ .null := (of_decide_eq_true arrives).2
  simp only [BurstMemory.State.Answers,reading] at answers
  rw [Nat.mul_div_cancel _ (by decide)] at answers
  exact answers.2 (OcpResp.eq_dva answered answers.1 good)

theorem fill_stage (state : r.stateReg = .fill) (inside : r.burstCntReg < g.words) :
    ((r.next g false m s).stateReg = .hold ∨ (r.next g false m s).stateReg = .fill) ∧
      (if r.beat s then r.burstCntReg+1 else r.burstCntReg) = (r.next g false m s).burstCntReg ∨
    (r.next g false m s).stateReg = .respond ∧ (if r.beat s then r.burstCntReg+1 else r.burstCntReg) = g.words := by
  cases arrives : r.beat s with
  | false => exact .inl (by simp [state,arrives])
  | true =>
    by_cases last : r.burstCntReg+1 = g.words
    · exact .inr ⟨by simp [state,arrives,← last],last⟩
    · refine .inl ⟨.inr ?_,?_⟩
      · simp only [next,state]
        rw [if_neg (by omega)]
        rfl
      · simp only [next,arrives,if_true]
        exact (Nat.mod_eq_of_lt (by omega)).symm
end Step

-- The beat just received is written in the next cycle.
def pending (r : Refill) (content : Nat → Word 4) : Nat → Word 4 := Geometry.overlay content r.fillReg r.wrAddrReg r.wrDataReg

-- What a way holds, by the state of the refill that works on it.
def WayValid (g : Geometry) (r : Refill) (w : Way) (ram : Nat → Word 4) : Prop :=
  match r.stateReg with
  | .idle => w.Coherent g w.content ram ∧ (r.masterReg.cmd ≠ .idle → w.Lookup g ram r.masterReg.addr)
  | .hold | .fill => w.Filling g (r.pending w.content) r.masterReg.addr ram r.burstCntReg
  | .respond => w.Filling g (r.pending w.content) r.masterReg.addr ram g.words

theorem way_fills {g : Geometry} {r : Refill} {w : Way} {ram : Nat → Word 4}
    (filling : w.Filling g (r.pending w.content) r.masterReg.addr ram beats)
    (stage : (r.stateReg = .hold ∨ r.stateReg = .fill) ∧ beats = r.burstCntReg ∨ r.stateReg = .respond ∧ beats = g.words) :
    r.WayValid g w ram := by
  rcases stage with ⟨state | state,rfl⟩ | ⟨state,rfl⟩ <;> simpa [WayValid,state] using filling

section Ways
variable {g : Geometry} {r : Refill} {w : Way} {m : OcpCoreMasterSignals 4} {s : OcpBurstSlaveSignals 4}
  {ram : Nat → Word 4} {hit drop invalidate : Bool}

theorem stmsk_quiet (quiet : r.masterReg.cmd ≠ .wr) (i : Fin 4) : r.stmsk i = false := by simp [stmsk,quiet]

theorem content_pending (quiet : r.masterReg.cmd ≠ .wr) (allocate : Bool) :
    (w.next g (r.port g m hit true allocate drop invalidate)).content = r.pending w.content := by
  exact Way.content_overlay fun i => by simp [port,stmsk_quiet quiet]

theorem pending_empty (empty : r.fillReg = false) (content : Nat → Word 4) : r.pending content = content := by
  rw [pending,empty,Geometry.overlay_none]

theorem filling_step (filling : w.Filling g (r.pending w.content) r.masterReg.addr ram r.burstCntReg)
    (state : r.stateReg = .hold ∨ r.stateReg = .fill) (quiet : r.masterReg.cmd ≠ .wr) (inside : r.burstCntReg < g.words)
    (dropped : r.beat s = true → s.resp = .err → drop = true)
    (word : r.beat s = true → s.resp ≠ .err → s.data = ram (g.base r.masterReg.addr + r.burstCntReg)) :
    (w.next g (r.port g m hit true false drop invalidate)).Filling g
      ((r.next g false m s).pending (w.next g (r.port g m hit true false drop invalidate)).content)
      (r.next g false m s).masterReg.addr ram (if r.beat s then r.burstCntReg+1 else r.burstCntReg) := by
  have address : (r.next g false m s).masterReg.addr = r.masterReg.addr := by
    rcases state with state | state <;> simp [state]
  have good (arrives : r.beat s = true) : drop = true ∨ s.data = ram (g.base r.masterReg.addr + r.burstCntReg) := by
    by_cases error : s.resp = .err
    · exact .inl (dropped arrives error)
    · exact .inr (word arrives error)
  have latched : (r.next g false m s).pending (r.pending w.content) = Geometry.overlay (r.pending w.content) (r.beat s)
      (g.index r.masterReg.addr*g.words+r.burstCntReg) s.data := by
    funext cell
    cases arrives : r.beat s with
    | false => simp [pending,Geometry.overlay,arrives]
    | true =>
      have filled : r.stateReg = .fill := (of_decide_eq_true arrives).1
      simp [pending,arrives,filled]
  rw [address,content_pending quiet,latched]
  exact Way.filling_next (p := r.port g m hit true false drop invalidate) filling rfl _ _ (fun _ => inside) good

theorem way_settles {filling : Bool} (settled : (r.next g false m s).stateReg = .idle)
    (free : r.stateReg ≠ .hold ∧ r.stateReg ≠ .fill)
    (survives : w.Survives g (r.port g m hit filling false drop invalidate) ram) :
    (r.next g false m s).WayValid g (w.next g (r.port g m hit filling false drop invalidate)) ram := by
  have latched : (r.next g false m s).masterReg.addr = m.addr := by simp [free]
  simp only [WayValid,settled]
  refine ⟨Way.survives_coherent rfl survives,fun _ => ?_⟩
  rw [latched]
  exact Way.survives_lookup rfl rfl survives

theorem idle_survives (hits : hit = w.tagValid g r.masterReg.addr) (empty : r.fillReg = false)
    (latched : r.masterReg.cmd ≠ .idle → r.wrAddrReg = g.cell r.masterReg.addr ∧ r.wrDataReg = r.masterReg.data)
    (coherent : w.Coherent g w.content ram) (lookup : r.masterReg.cmd ≠ .idle → w.Lookup g ram r.masterReg.addr) :
    w.Survives g (r.port g m hit true false drop invalidate) (r.writeThrough ram) := by
  unfold writeThrough
  by_cases write : r.masterReg.cmd = .wr
  · have busy : r.masterReg.cmd ≠ .idle := by simp [write]
    obtain ⟨target,data⟩ := latched busy
    rw [if_pos write,← data]
    refine Way.survives_store rfl coherent (lookup busy) _ target ?_
    simp [port,stmsk,empty,write,hits]
  · rw [if_neg write]
    refine Way.survives_quiet rfl (fun i => ?_) coherent
    simp [port,stmsk,empty,write]

theorem way_step {memory : BurstMemory.State 4} {core : Option Nat} {miss : Bool}
    (progress : Progress g memory.ram r memory.phase core) (way : r.WayValid g w memory.ram)
    (hits : hit = w.tagValid g r.masterReg.addr) (missing : miss = true → r.masterReg.cmd = .rd)
    (answers : memory.Answers (r.slaveM g miss) s) (dropped : r.beat s = true → s.resp = .err → drop = true) :
    (r.next g miss m s).WayValid g (w.next g (r.port g m hit true miss drop invalidate)) (r.writeThrough memory.ram) := by
  generalize phase : memory.phase = p at progress
  have stays (quiet : r.masterReg.cmd ≠ .wr) : r.writeThrough memory.ram = memory.ram := by simp [writeThrough,quiet]
  have busy (outstanding : Outstanding g r core) : miss = false ∧ r.masterReg.cmd ≠ .wr := by
    refine ⟨?_,by simp [outstanding.quiet]⟩
    by_contra given
    simp only [outstanding.quiet,reduceCtorEq] at missing
    exact missing (by simpa using given)
  cases progress with
  | idle state count empty latched =>
    simp only [WayValid,state] at way
    cases miss with
    | false =>
      exact way_settles (by simp [state]) (by simp [state]) (idle_survives hits empty latched way.1 way.2)
    | true =>
      have quiet : r.masterReg.cmd ≠ .wr := by simp [missing rfl]
      rw [stays quiet]
      have begun := Way.filling_begins (p := r.port g m hit true true drop invalidate) way.1 rfl
      have kept : (r.next g true m s).pending (w.next g (r.port g m hit true true drop invalidate)).content = w.content := by
        rw [content_pending quiet,pending_empty empty,pending_empty (by simp [beat,state])]
      refine way_fills (by rw [kept]; exact begun) (.inl ⟨?_,?_⟩)
      · cases accept : s.cmdAccept <;> simp [state]
      · simp [beat,state,count]
  | hold state count empty outstanding =>
    obtain ⟨rfl,quiet⟩ := busy outstanding
    have none : r.beat s = false := by simp [beat,state]
    simp only [WayValid,state] at way
    rw [stays quiet]
    have inside : r.burstCntReg < g.words := count ▸ g.words_pos
    refine way_fills (filling_step way (.inl state) quiet inside (by simp [none]) (by simp [none])) (.inl ⟨?_,?_⟩)
    · cases accept : s.cmdAccept <;> simp [state]
    · simp [none]
  | fill state inside writing outstanding answered =>
    obtain ⟨rfl,quiet⟩ := busy outstanding
    simp only [WayValid,state] at way
    rw [stays quiet]
    exact way_fills (filling_step way (.inr state) quiet inside dropped
      (beat_word phase answers)) (fill_stage state inside)
  | respond state count writing target outstanding answer =>
    obtain ⟨rfl,quiet⟩ := busy outstanding
    simp only [WayValid,state] at way
    rw [stays quiet]
    exact way_settles (by simp [state]) (by simp [state]) (Way.filling_done way rfl (content_pending quiet false))
end Ways
end Refill
end Patmos
