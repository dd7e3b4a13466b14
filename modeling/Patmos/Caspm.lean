import Patmos.TransitionSystem
import Patmos.RegisterWidth
import Patmos.BurstMemory
namespace Patmos
open Transition Register List

-- The byte-wide memory blocks as one array of words. `undefined` is what a block without bypass shows for a byte that
-- is read while it is written.
structure Spm where
  mem : Nat → Word 4
  rdData : Word 4

namespace Spm
def index (size addr : Nat) : Nat := addr/4 % 2^log2Up (size/4)

def stmsk (m : OcpCoreMasterSignals 4) : ByteEn 4 := fun i => m.cmd = .wr && m.byteEn i

def next (size : Nat) (p : Spm) (m : OcpCoreMasterSignals 4) (undefined : Word 4) : Spm where
  mem := Function.update p.mem (index size m.addr) (BurstMemory.merge (p.mem (index size m.addr)) m.data (stmsk m))
  rdData := fun i => if stmsk m i then undefined i else p.mem (index size m.addr) i
end Spm

inductive CasState where
  | sIdle
  | sRead
  | sWrite
  deriving DecidableEq, Repr

structure Caspm (cores : Nat) where
  spm : Spm
  precnt : Nat
  cnt : Fin (cores+1)
  cmdRegs : Fin (cores+1) → OcpCmd
  addrRegs : Fin (cores+1) → Nat
  newvalRegs : Fin (cores+1) → Word 4
  bytenRegs : Fin (cores+1) → ByteEn 4
  expvalRegs : Fin (cores+1) → Word 4
  states : Fin (cores+1) → CasState
  respReg : Fin (cores+1) → OcpResp

namespace Caspm
def cntmax : Nat := 2

def precntNext (c : Caspm cores) : Nat := if c.precnt = cntmax then 0 else c.precnt+1

def cntNext (c : Caspm cores) : Fin (cores+1) :=
  if c.precnt ≠ cntmax then c.cnt
  else if more : c.cnt.val+1 < cores+1 then ⟨c.cnt.val+1,more⟩ else ⟨0,Nat.succ_pos _⟩

def spmM (c : Caspm cores) : OcpCoreMasterSignals 4 :=
  ⟨c.cmdRegs c.cnt,c.addrRegs c.cnt,c.newvalRegs c.cnt,c.bytenRegs c.cnt⟩

def coreS (c : Caspm cores) (i : Fin (cores+1)) : OcpSlaveSignals 4 := ⟨c.respReg i,c.spm.rdData⟩

def setsNew (m : OcpCoreMasterSignals 4) : Bool := m.addr/4 % 2 = 1

def next (size : Nat) (c : Caspm cores) (m : Fin (cores+1) → OcpCoreMasterSignals 4) (undefined : Word 4) : Caspm cores where
  spm := c.spm.next size c.spmM undefined
  precnt := c.precntNext
  cnt := c.cntNext
  cmdRegs i := if c.states i = .sWrite ∧ c.spm.rdData = c.expvalRegs i then .wr else .rd
  addrRegs i := if c.states i = .sIdle ∧ (m i).cmd = .rd then (m i).addr % 2^log2Up size else c.addrRegs i
  newvalRegs i := if c.states i = .sIdle ∧ (m i).cmd = .wr ∧ setsNew (m i) then (m i).data else c.newvalRegs i
  bytenRegs i := if c.states i = .sIdle ∧ (m i).cmd = .rd then (m i).byteEn else c.bytenRegs i
  expvalRegs i := if c.states i = .sIdle ∧ (m i).cmd = .wr ∧ ¬setsNew (m i) then (m i).data else c.expvalRegs i
  states i :=
    match c.states i with
    | .sIdle => if (m i).cmd = .rd then .sRead else .sIdle
    | .sRead => if c.cnt = i ∧ c.precnt = 0 then .sWrite else .sRead
    | .sWrite => .sIdle
  respReg i :=
    match c.states i with
    | .sIdle => if (m i).cmd = .wr then .dva else .null
    | .sRead => .null
    | .sWrite => .dva
end Caspm
open Caspm

namespace CompareAndSwap
structure Cas (cores : Nat) where
  core : Fin (cores+1)
  word : Nat
  expected : Word 4
  new : Word 4
  returned : Word 4

def Cas.apply (mem : Nat → Word 4) (c : Cas cores) : Nat → Word 4 :=
  if mem c.word = c.expected then Function.update mem c.word c.new else mem

-- Each operation returns the word its predecessors left and stores on equality.
inductive Sequential (origin : Nat → Word 4) : List (Cas cores) → (Nat → Word 4) → Prop where
  | nil : Sequential origin [] origin
  | snoc : Sequential origin done mem → c.returned = mem c.word → Sequential origin (done ++ [c]) (c.apply mem)

inductive Request where
  | set
  | cas (word : Nat)

-- `history` holds the operations in the order of their responses, with the data the core receives and the values it had
-- written before.
structure State (cores : Nat) where
  device : Caspm cores
  request : Fin (cores+1) → Option Request
  expected : Fin (cores+1) → Word 4
  new : Fin (cores+1) → Word 4
  origin : Nat → Word 4
  history : List (Cas cores)
  issued : Fin (cores+1) → Nat
  answered : Fin (cores+1) → Nat

structure Cycle (cores : Nat) where
  m : Fin (cores+1) → OcpCoreMasterSignals 4
  undefined : Word 4

section Events
variable {cores : Nat}

def addressed (size addr : Nat) : Nat := Spm.index size (addr % 2^log2Up size)

section
variable (size : Nat) (s : State cores) (x : Cycle cores) (i : Fin (cores+1))

def responds : Bool := (s.device.coreS i).resp = .dva

def completed : List (Cas cores) :=
  match s.request i with
  | some (.cas word) =>
    if responds s i then [⟨i,word,s.expected i,s.new i,(s.device.coreS i).data⟩] else []
  | _ => []

def requestNext : Option Request :=
  match (x.m i).cmd with
  | .rd => some (.cas (addressed size (x.m i).addr))
  | .wr => some .set
  | .idle => if responds s i then none else s.request i

def Conforms : Prop :=
  ((x.m i).cmd ≠ .idle → s.request i = none ∨ responds s i = true) ∧
    ((x.m i).cmd = .rd → (∀ b, (x.m i).byteEn b = true) ∧ addressed size (x.m i).addr < size/4)
end

instance (size : Nat) (s : State cores) (x : Cycle cores) (i : Fin (cores+1)) : Decidable (Conforms size s x i) :=
  inferInstanceAs (Decidable ((_ → _) ∧ (_ → _)))
end Events

def system (cores size : Nat) : System (State cores) (Cycle cores) where
  start s := s.device.precnt = 0 ∧ s.device.cnt = ⟨0,Nat.succ_pos _⟩ ∧ (∀ i, s.device.cmdRegs i = .rd) ∧
    (∀ i, s.device.states i = .sIdle) ∧ (∀ i, s.device.respReg i = .null) ∧
    s.request = (fun _ => none) ∧ s.expected = s.device.expvalRegs ∧ s.new = s.device.newvalRegs ∧
    s.origin = s.device.spm.mem ∧ s.history = [] ∧ s.issued = (fun _ => 0) ∧ s.answered = fun _ => 0
  admits s x := ∀ i, Conforms size s x i
  next s x := {
    device := s.device.next size x.m x.undefined
    request := requestNext size s x
    expected := fun i => if (x.m i).cmd = .wr ∧ ¬setsNew (x.m i) then (x.m i).data else s.expected i
    new := fun i => if (x.m i).cmd = .wr ∧ setsNew (x.m i) then (x.m i).data else s.new i
    origin := s.origin
    history := s.history ++ (finRange (cores+1)).flatMap (completed s)
    issued := fun i => if (x.m i).cmd ≠ .idle then s.issued i+1 else s.issued i
    answered := fun i => if responds s i then s.answered i+1 else s.answered i }

abbrev State.after (size : Nat) (s : State cores) (x : Cycle cores) := (system cores size).next s x

attribute [local simp] State.after system Caspm.next

section Invariant
variable {cores size : Nat} {s : State cores} {x : Cycle cores} {i : Fin (cores+1)}

-- What core i has asked for and how far the device is. The slot of a core is three cycles long: it reads, compares, and
-- then writes while it answers.
inductive Stage (size : Nat) (s : State cores) (i : Fin (cores+1)) : Option Request → Prop where
  | idle : s.device.states i = .sIdle → s.device.respReg i = .null → s.device.cmdRegs i = .rd → Stage size s i none
  | set : s.device.states i = .sIdle → s.device.respReg i = .dva → s.device.cmdRegs i = .rd → Stage size s i (some .set)
  | waiting : s.device.states i = .sRead → s.device.respReg i = .null → s.device.cmdRegs i = .rd →
      Spm.index size (s.device.addrRegs i) = word → s.device.bytenRegs i = (fun _ => true) → Stage size s i (some (.cas word))
  | reading : s.device.states i = .sWrite → s.device.respReg i = .null → s.device.cmdRegs i = .rd →
      Spm.index size (s.device.addrRegs i) = word → s.device.bytenRegs i = (fun _ => true) →
      s.device.cnt = i → s.device.precnt = 1 → s.device.spm.rdData = s.device.spm.mem word → Stage size s i (some (.cas word))
  | writing : s.device.states i = .sIdle → s.device.respReg i = .dva →
      s.device.cmdRegs i = (if s.device.spm.mem word = s.expected i then .wr else .rd) →
      Spm.index size (s.device.addrRegs i) = word → s.device.bytenRegs i = (fun _ => true) →
      s.device.cnt = i → s.device.precnt = 2 → s.device.spm.rdData = s.device.spm.mem word → Stage size s i (some (.cas word))

structure Valid (size : Nat) (s : State cores) : Prop where
  stage : ∀ i, Stage size s i (s.request i)
  expected : s.device.expvalRegs = s.expected
  new : s.device.newvalRegs = s.new
  sequential : Sequential s.origin s.history s.device.spm.mem
  counted : ∀ i, s.issued i = s.answered i+(s.request i).isSome.toNat
  slot : s.device.precnt ≤ 2

theorem responds_iff : responds s i = true ↔ s.device.respReg i = .dva := decide_eq_true_iff

theorem stage_responds (stage : Stage size s i (s.request i)) (responding : responds s i = true) :
    s.device.states i = .sIdle := by
  have dva := responds_iff.mp responding
  generalize s.request i = request at stage
  cases stage with
  | idle _ null _ | waiting _ null _ _ _ | reading _ null _ _ _ _ _ _ => rw [null] at dva; cases dva
  | set idle _ _ | writing idle _ _ _ _ _ _ _ => exact idle

theorem responds_pending (stage : Stage size s i (s.request i)) (responding : responds s i = true) :
    (s.request i).isSome = true := by
  have dva := responds_iff.mp responding
  generalize s.request i = request at stage
  cases stage with
  | idle _ null _ => rw [null] at dva; cases dva
  | set _ _ _ | waiting _ _ _ _ _ | reading _ _ _ _ _ _ _ _ | writing _ _ _ _ _ _ _ _ => rfl

theorem command_idle (stage : Stage size s i (s.request i)) (conforms : Conforms size s x i)
    (command : (x.m i).cmd ≠ .idle) : s.device.states i = .sIdle := by
  rcases conforms.1 command with none | responding
  · rw [none] at stage
    cases stage with
    | idle idle _ _ => exact idle
  · exact stage_responds stage responding

theorem stage_fresh (idle : s.device.states i = .sIdle) (conforms : Conforms size s x i)
    (settled : s.request i = none ∨ responds s i = true) :
    Stage size (s.after size x) i (requestNext size s x i) := by
  have cmdRegs : (s.after size x).device.cmdRegs i = .rd := by simp [idle]
  unfold requestNext
  cases command : (x.m i).cmd with
  | idle =>
    have gone : (if responds s i = true then none else s.request i) = none := by
      rcases settled with none | responding
      · rw [none,ite_self]
      · exact if_pos responding
    simp only [gone]
    exact .idle (by simp [idle,command]) (by simp [idle,command]) cmdRegs
  | rd =>
    refine .waiting (by simp [idle,command]) (by simp [idle,command]) cmdRegs ?_ ?_
    · simp [idle,command,addressed]
    · simpa [idle,command] using funext (conforms.2 command).1
  | wr =>
    exact .set (by simp [idle,command]) (by simp [idle,command]) cmdRegs

theorem stmsk_read (m : OcpCoreMasterSignals 4) (read : m.cmd = .rd) : Spm.stmsk m = fun _ => false := by
  funext b
  simp [Spm.stmsk,read]

theorem stmsk_write (m : OcpCoreMasterSignals 4) (write : m.cmd = .wr) (all : m.byteEn = fun _ => true) :
    Spm.stmsk m = fun _ => true := by
  funext b
  simp [Spm.stmsk,write,all]

theorem spm_read (read : s.device.cmdRegs s.device.cnt = .rd) :
    (s.after size x).device.spm =
      ⟨s.device.spm.mem,s.device.spm.mem (Spm.index size (s.device.addrRegs s.device.cnt))⟩ := by
  change Spm.next size s.device.spm s.device.spmM x.undefined = _
  rw [Spm.next,stmsk_read s.device.spmM read]
  simp [spmM]

theorem silent_request (conforms : Conforms size s x i) (pending : s.request i = some request)
    (null : s.device.respReg i = .null) : (x.m i).cmd = .idle ∧ requestNext size s x i = some request := by
  have quiet : ¬responds s i = true := by rw [responds_iff,null]; decide
  have silent : (x.m i).cmd = .idle := Classical.byContradiction fun command => by
    rcases conforms.1 command with none | responding
    · rw [pending] at none; cases none
    · exact quiet responding
  refine ⟨silent,?_⟩
  simp only [requestNext,silent]
  rw [if_neg quiet,pending]

theorem stage_step (valid : Valid size s) (conforms : Conforms size s x i) :
    Stage size (s.after size x) i (requestNext size s x i) := by
  have stage := valid.stage i
  generalize pending : s.request i = request at stage
  cases stage with
  | idle idle _ _ => exact stage_fresh idle conforms (.inl pending)
  | set idle dva _ | writing idle dva _ _ _ _ _ _ => exact stage_fresh idle conforms (.inr (responds_iff.mpr dva))
  | waiting read null cmd here all =>
    obtain ⟨silent,same⟩ := silent_request conforms pending null
    rw [same]
    have respReg : (s.after size x).device.respReg i = .null := by simp [read]
    have cmdRegs : (s.after size x).device.cmdRegs i = .rd := by simp [read]
    have addrRegs : (s.after size x).device.addrRegs i = s.device.addrRegs i := by
      simp [read]
    have bytenRegs : (s.after size x).device.bytenRegs i = s.device.bytenRegs i := by
      simp [read]
    by_cases turn : s.device.cnt = i ∧ s.device.precnt = 0
    · obtain ⟨rfl,first⟩ := turn
      refine .reading (by simp [read,first]) respReg cmdRegs (addrRegs ▸ here) (bytenRegs ▸ all) ?_ ?_ ?_
      · simp [cntNext,cntmax,first]
      · simp [precntNext,cntmax,first]
      · rw [spm_read cmd,here]
    · exact .waiting (by simp [read,turn]) respReg cmdRegs (addrRegs ▸ here) (bytenRegs ▸ all)
  | reading write null cmd here all turn second data =>
    obtain ⟨silent,same⟩ := silent_request conforms pending null
    rw [same]
    subst turn
    have spm := @spm_read cores size s x cmd
    have compared : (s.after size x).device.cmdRegs s.device.cnt =
        if s.device.spm.rdData = s.device.expvalRegs s.device.cnt then .wr else .rd := by simp [write]
    have expected : (s.after size x).expected s.device.cnt = s.expected s.device.cnt := by
      simp [silent]
    refine .writing (by simp [write]) (by simp [write]) ?_ ?_ ?_ ?_ ?_ ?_
    · rw [compared,spm,expected,valid.expected,data]
    · simpa [write] using here
    · simpa [write] using all
    · simp [cntNext,cntmax,second]
    · simp [precntNext,cntmax,second]
    · rw [spm,here]

theorem completed_turn (stage : Stage size s i (s.request i)) (other : s.device.cnt ≠ i ∨ s.device.precnt ≠ 2) :
    completed s i = [] := by
  unfold completed
  generalize s.request i = request at stage
  cases stage with
  | idle _ _ _ | set _ _ _ => rfl
  | waiting _ null _ _ _ | reading _ null _ _ _ _ _ _ => simp [responds,coreS,null]
  | writing _ _ _ _ _ turn third _ =>
    rcases other with other | other
    · exact absurd turn other
    · exact absurd third other

theorem flatMap_single (f : ι → List ε) (items : List ι) (distinct : items.Nodup) (present : c ∈ items)
    (others : ∀ j, j ≠ c → f j = []) : items.flatMap f = f c := by
  induction items with
  | nil => cases present
  | cons first rest ih =>
    obtain ⟨apart,distinct⟩ := nodup_cons.mp distinct
    rw [flatMap_cons]
    rcases mem_cons.mp present with rfl | later
    · have none : rest.flatMap f = [] := flatMap_eq_nil_iff.mpr fun j inside =>
        others j fun same => apart (same ▸ inside)
      rw [none,append_nil]
    · have skipped : first ≠ c := fun same => apart (same ▸ later)
      rw [others first skipped,ih distinct later,nil_append]

theorem completed_only (valid : Valid size s) :
    (finRange (cores+1)).flatMap (completed s) = completed s s.device.cnt :=
  flatMap_single _ _ (nodup_finRange _) (mem_finRange _) fun j other =>
    completed_turn (valid.stage j) (.inl other.symm)

theorem sequential_step (valid : Valid size s) :
    Sequential s.origin (s.history ++ (finRange (cores+1)).flatMap (completed s))
      (s.after size x).device.spm.mem := by
  rw [completed_only valid]
  have stage := valid.stage s.device.cnt
  have sequential := valid.sequential
  generalize pending : s.request s.device.cnt = request at stage
  have unchanged (none : completed s s.device.cnt = []) (read : s.device.cmdRegs s.device.cnt = .rd) :
      Sequential s.origin (s.history ++ completed s s.device.cnt) (s.after size x).device.spm.mem := by
    rw [none,append_nil,spm_read read]
    exact sequential
  cases stage with
  | idle _ _ cmd | set _ _ cmd => exact unchanged (by simp [completed,pending]) cmd
  | waiting _ null cmd _ _ | reading _ null cmd _ _ _ _ _ =>
    exact unchanged (by simp [completed,pending,responds,coreS,null]) cmd
  | @writing word _ dva cmd here all _ _ data =>
    have entry : completed s s.device.cnt =
        [⟨s.device.cnt,word,s.expected s.device.cnt,s.new s.device.cnt,s.device.spm.mem word⟩] := by
      simp [completed,pending,responds,coreS,dva,data]
    rw [entry]
    have stored : (s.after size x).device.spm.mem = Cas.apply s.device.spm.mem
        ⟨s.device.cnt,word,s.expected s.device.cnt,s.new s.device.cnt,s.device.spm.mem word⟩ := by
      by_cases equal : s.device.spm.mem word = s.expected s.device.cnt
      · rw [if_pos equal] at cmd
        change (Spm.next size s.device.spm s.device.spmM x.undefined).mem = _
        rw [Spm.next,stmsk_write s.device.spmM cmd all,Cas.apply,if_pos equal]
        simp [spmM,here,valid.new]
      · rw [if_neg equal] at cmd
        rw [spm_read cmd,Cas.apply,if_neg equal]
    rw [stored]
    exact .snoc sequential rfl

theorem counted_step (stage : Stage size s i (s.request i)) (conforms : Conforms size s x i)
    (counted : s.issued i = s.answered i+(s.request i).isSome.toNat) :
    (if (x.m i).cmd ≠ .idle then s.issued i+1 else s.issued i) =
      (if responds s i then s.answered i+1 else s.answered i)+(requestNext size s x i).isSome.toNat := by
  by_cases command : (x.m i).cmd = .idle
  · simp only [requestNext,command]
    by_cases responding : responds s i = true
    · rw [responds_pending stage responding] at counted
      rw [if_pos responding,if_pos responding]
      exact counted
    · rw [if_neg responding,if_neg responding]
      exact counted
  · have pending : (requestNext size s x i).isSome = true := by
      unfold requestNext
      cases cmd : (x.m i).cmd with
      | idle => exact absurd cmd command
      | rd | wr => rfl
    rw [if_pos command,pending]
    by_cases responding : responds s i = true
    · rw [responds_pending stage responding] at counted
      rw [if_pos responding]
      exact congrArg (·+1) counted
    · rcases conforms.1 command with none | responds
      · rw [none] at counted
        rw [if_neg responding]
        exact congrArg (·+1) counted
      · exact absurd responds responding

theorem valid_start (begun : (system cores size).start s) : Valid size s := by
  obtain ⟨precnt,-,cmdRegs,states,respReg,request,expected,new,origin,history,issued,answered⟩ := begun
  refine ⟨fun i => ?_,expected.symm,new.symm,?_,fun i => ?_,?_⟩
  · rw [request]
    exact .idle (states i) (respReg i) (cmdRegs i)
  · rw [history,origin]
    exact .nil
  · rw [issued,answered,request]
    rfl
  · rw [precnt]
    exact Nat.zero_le 2

theorem valid_step (valid : Valid size s) (admitted : (system cores size).admits s x) :
    Valid size (s.after size x) := by
  have idle (i) (write : (x.m i).cmd = .wr) : s.device.states i = .sIdle :=
    command_idle (valid.stage i) (admitted i) (by rw [write]; decide)
  refine ⟨fun i => stage_step valid (admitted i),funext fun i => ?_,funext fun i => ?_,sequential_step valid,fun i => ?_,?_⟩
  · change (if _ then _ else _) = if _ then _ else _
    rw [← valid.expected]
    by_cases write : (x.m i).cmd = .wr
    · simp [idle i write]
    · simp [write]
  · change (if _ then _ else _) = if _ then _ else _
    rw [← valid.new]
    by_cases write : (x.m i).cmd = .wr
    · simp [idle i write]
    · simp [write]
  · exact counted_step (valid.stage i) (admitted i) (valid.counted i)
  · change precntNext s.device ≤ 2
    have slot := valid.slot
    unfold precntNext cntmax
    split <;> omega

theorem reached_valid (path : Reached (system cores size) s) : Valid size s :=
  path.invariant (fun _ => valid_start) (fun _ _ => valid_step)

def untilSlot (c : Caspm cores) (i : Fin (cores+1)) : Nat :=
  if 3*c.cnt.val+c.precnt ≤ 3*i.val then 3*i.val-(3*c.cnt.val+c.precnt)
  else 3*i.val+3*(cores+1)-(3*c.cnt.val+c.precnt)

def untilAnswer (i : Fin (cores+1)) (s : State cores) : Nat :=
  match s.device.states i with
  | .sRead => untilSlot s.device i+2
  | .sWrite => 1
  | .sIdle => 0

theorem untilSlot_bound (c : Caspm cores) (i : Fin (cores+1)) : untilSlot c i < 3*(cores+1) := by
  unfold untilSlot
  split <;> omega

theorem untilSlot_step (slot : s.device.precnt ≤ 2) (other : ¬(s.device.cnt = i ∧ s.device.precnt = 0)) :
    untilSlot (s.after size x).device i+1 = untilSlot s.device i := by
  have precnt : (s.after size x).device.precnt = if s.device.precnt = 2 then 0 else s.device.precnt+1 := rfl
  have cnt : (s.after size x).device.cnt.val =
      if s.device.precnt ≠ 2 then s.device.cnt.val else if s.device.cnt.val+1 < cores+1 then s.device.cnt.val+1 else 0 := by
    change (cntNext s.device).val = _
    unfold cntNext cntmax
    split
    · rfl
    · split <;> rfl
  unfold untilSlot
  rw [precnt,cnt]
  split_ifs <;> omega

theorem untilAnswer_step (path : Reached (system cores size) s) (admitted : (system cores size).admits s x)
    (pending : (s.request i).isSome = true) (quiet : ¬responds s i = true) :
    ((s.after size x).request i).isSome = true ∧
      untilAnswer i (s.after size x) < untilAnswer i s := by
  have valid := reached_valid path
  have stage := valid.stage i
  have null : s.device.respReg i = .null := by
    generalize s.request i = request at stage
    cases stage with
    | idle _ null _ | waiting _ null _ _ _ | reading _ null _ _ _ _ _ _ => exact null
    | set _ dva _ | writing _ dva _ _ _ _ _ _ => exact absurd (responds_iff.mpr dva) quiet
  obtain ⟨request,pending⟩ := Option.isSome_iff_exists.mp pending
  have kept := (silent_request (admitted i) pending null).2
  refine ⟨by rw [show (s.after size x).request i = _ from kept]; rfl,?_⟩
  rw [pending] at stage
  cases stage with
  | set _ dva _ | writing _ dva _ _ _ _ _ _ => exact absurd (responds_iff.mpr dva) quiet
  | reading write _ _ _ _ _ _ _ => simp [untilAnswer,write]
  | waiting read _ _ _ _ =>
    by_cases turn : s.device.cnt = i ∧ s.device.precnt = 0
    · have next : (s.after size x).device.states i = .sWrite := by simp [read,turn]
      simp [untilAnswer,next,read,-system]
    · have next : (s.after size x).device.states i = .sRead := by simp [read,turn]
      have nearer := @untilSlot_step cores size s x i valid.slot turn
      simp only [untilAnswer,next,read]
      omega

theorem answer_arrives (path : Reached (system cores size) s) {inputs : Nat → Cycle cores}
    (follows : ∀ t, (system cores size).Follows s inputs t) (pending : (s.request i).isSome = true) :
    ∃ t ≤ 3*(cores+1)+1, responds ((system cores size).states s inputs t) i = true := by
  have bound : untilAnswer i s ≤ 3*(cores+1)+1 := by
    have slot := untilSlot_bound s.device i
    unfold untilAnswer
    split <;> omega
  obtain ⟨t,within,-,responding⟩ := Reached.served
    (fun _ _ => untilAnswer_step) path follows pending
  exact ⟨t,within.trans bound,responding⟩
end Invariant

theorem caspm_linearizable {s : State cores} (path : Reached (system cores size) s) :
    Sequential s.origin s.history s.device.spm.mem ∧
    (∀ i, s.issued i = s.answered i+(s.request i).isSome.toNat) ∧
    ∀ inputs, (∀ t, (system cores size).Follows s inputs t) → ∀ i, (s.request i).isSome = true →
      ∃ t ≤ 3*(cores+1)+1, responds ((system cores size).states s inputs t) i = true :=
  have valid := reached_valid path
  ⟨valid.sequential,valid.counted,fun _ follows _ => answer_arrives path follows⟩

def initial (cores : Nat) : State cores where
  device := ⟨⟨fun _ _ => 0,fun _ => 0⟩,0,⟨0,Nat.succ_pos _⟩,fun _ => .rd,fun _ => 0,fun _ _ => 0,fun _ _ => true,fun _ _ => 0,
    fun _ => .sIdle,fun _ => .null⟩
  request _ := none
  expected _ _ := 0
  new _ _ := 0
  origin _ _ := 0
  history := []
  issued _ := 0
  answered _ := 0

theorem initial_reached (cores size : Nat) : Reached (system cores size) (initial cores) :=
  .start ⟨rfl,rfl,fun _ => rfl,fun _ => rfl,fun _ => rfl,rfl,rfl,rfl,rfl,rfl,rfl,rfl⟩

-- Two cores set different new values and then swap the same word.
def swaps : List (Cycle 1) :=
  let each (cmd : OcpCmd) (addr : Nat) : Cycle 1 := ⟨fun i => ⟨cmd,addr,fun _ => BitVec.ofNat 8 (i.val+5),fun _ => true⟩,fun _ => 0⟩
  [each .wr 4,each .rd 0,each .idle 0,each .idle 0,each .idle 0,each .idle 0,each .idle 0,each .idle 0,each .idle 0]

instance (s : State cores) (x : Cycle cores) : Decidable ((system cores size).admits s x) :=
  inferInstanceAs (Decidable (∀ i, Conforms size s x i))

theorem caspm_linearizable_contended :
    let s := (system 1 8).run (initial 1) swaps
    (s.history.map (fun c => (c.core,c.word,c.returned)) = [(1,0,fun _ => 0),(0,0,fun _ => 6)] ∧
      s.device.spm.mem 0 = fun _ => 6) ∧
      Sequential s.origin s.history s.device.spm.mem ∧
      (∀ i, s.issued i = s.answered i+(s.request i).isSome.toNat) ∧
      ∀ inputs, (∀ t, (system 1 8).Follows s inputs t) → ∀ i, (s.request i).isSome = true →
        ∃ t ≤ 3*(1+1)+1, responds ((system 1 8).states s inputs t) i = true :=
  ⟨by decide +kernel,caspm_linearizable ((initial_reached 1 8).run swaps (by decide +kernel))⟩
end CompareAndSwap
end Patmos
