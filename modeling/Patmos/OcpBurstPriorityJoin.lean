import Mathlib.Data.Nat.Size
import Patmos.TransitionSystem
import Patmos.OcpBurstProtocol
namespace Patmos.OcpBurstPriorityJoin
open OcpBurst Transition

structure State where
  leftPendingReg : Bool
  rightPendingReg : Bool
  pendingRespReg : Nat

variable {lanes : Nat}

section
variable (burstLength : Nat) (s : State) (left right : OcpBurstMasterSignals lanes) (joined : OcpBurstSlaveSignals lanes)

def selLeft (left : OcpBurstMasterSignals lanes) : Bool := left.cmd != .idle && !s.rightPendingReg

def selRight : Bool := right.cmd != .idle && left.cmd == .idle && !s.leftPendingReg

def joinedM : OcpBurstMasterSignals lanes :=
  if selRight s left right then right
  else if selLeft s left then left
  else if s.rightPendingReg then right else left

def leftS : OcpBurstSlaveSignals lanes where
  resp := if s.leftPendingReg then joined.resp else .null
  data := joined.data
  cmdAccept := if s.rightPendingReg then false else joined.cmdAccept
  dataAccept := if s.rightPendingReg then false else joined.dataAccept

def rightS (left : OcpBurstMasterSignals lanes) (joined : OcpBurstSlaveSignals lanes) : OcpBurstSlaveSignals lanes where
  resp := if s.rightPendingReg then joined.resp else .null
  data := joined.data
  cmdAccept := if selLeft s left || s.leftPendingReg then false else joined.cmdAccept
  dataAccept := if selLeft s left || s.leftPendingReg then false else joined.dataAccept

def responses (cmd : OcpCmd) : Nat := if cmd = .wr then 1 else burstLength

-- The register is declared without a width and takes that of burstLength.
def decrement (burstLength n : Nat) : Nat :=
  (n + (2^burstLength.size - 1)) % 2^burstLength.size

def next : State where
  leftPendingReg :=
    if joined.resp ≠ .null ∧ s.pendingRespReg = 1 ∧ s.leftPendingReg then false
    else if selLeft s left then true else s.leftPendingReg
  rightPendingReg :=
    if joined.resp ≠ .null ∧ s.pendingRespReg = 1 ∧ s.rightPendingReg then false
    else if selRight s left right then true else s.rightPendingReg
  pendingRespReg :=
    if joined.resp ≠ .null then decrement burstLength s.pendingRespReg
    else if selRight s left right then responses burstLength right.cmd
    else if selLeft s left then responses burstLength left.cmd
    else s.pendingRespReg
end

theorem decrement_exact (positive : 0 < n) (bounded : n ≤ burstLength) : decrement burstLength n = n-1 := by
  have fits : n < 2^burstLength.size := bounded.trans_lt (Nat.lt_size_self _)
  have shift : n + (2^burstLength.size - 1) = n-1 + 2^burstLength.size := by omega
  rw [decrement,shift,Nat.add_mod_right,Nat.mod_eq_of_lt (by omega)]

-- The join between its two masters and its slave, each with what the protocol lets it do next.
structure Joined where
  join : State
  left : Phase
  right : Phase
  slave : Phase

structure Cycle (lanes : Nat) where
  left : OcpBurstMasterSignals lanes
  right : OcpBurstMasterSignals lanes
  joined : OcpBurstSlaveSignals lanes

def initial : Joined := ⟨⟨false,false,0⟩,.idle,.idle,.idle⟩

def Cycle.joinedM (i : Cycle lanes) (s : Joined) := OcpBurstPriorityJoin.joinedM s.join i.left i.right
def Cycle.leftS (i : Cycle lanes) (s : Joined) := OcpBurstPriorityJoin.leftS s.join i.joined
def Cycle.rightS (i : Cycle lanes) (s : Joined) := OcpBurstPriorityJoin.rightS s.join i.left i.joined

def system (burstLength lanes : Nat) : System Joined (Cycle lanes) where
  start s := s = initial
  admits s i := s.left.Offers i.left ∧ s.right.Offers i.right ∧ s.slave.Answers (i.joinedM s) i.joined
  next s i := {
    join := next burstLength s.join i.left i.right i.joined
    left := s.left.next burstLength i.left (i.leftS s)
    right := s.right.next burstLength i.right (i.rightS s)
    slave := (s.slave.next burstLength (i.joinedM s) i.joined).outstanding }

instance (s : Joined) (i : Cycle lanes) : Decidable ((system burstLength lanes).admits s i) :=
  inferInstanceAs (Decidable (_ ∧ _ ∧ _))

inductive Serving (burstLength : Nat) : Phase → Phase → Nat → Prop where
  | request : cmd ≠ .idle → Serving burstLength (.request cmd) .idle (responses burstLength cmd)
  | data : Serving burstLength (.data (left+1)) (.data (left+1)) 1
  | response : left+1 ≤ burstLength → Serving burstLength (.response (left+1)) (.response (left+1)) (left+1)

inductive Valid (burstLength : Nat) : Joined → Prop where
  | free : Waiting left → Waiting right → Valid burstLength ⟨⟨false,false,n⟩,left,right,.idle⟩
  | left : Serving burstLength left slave n → Waiting right →
      Valid burstLength ⟨⟨true,false,n⟩,left,right,slave⟩
  | right : Waiting left → Serving burstLength right slave n →
      Valid burstLength ⟨⟨false,true,n⟩,left,right,slave⟩

theorem accepted_outstanding (burstLength : Nat) (cmd : OcpCmd) :
    (Phase.accepted burstLength cmd).outstanding = Phase.accepted burstLength cmd := by
  cases cmd with
  | idle | rd => rfl
  | wr =>
    simp only [Phase.accepted]
    cases burstLength-1 <;> rfl

theorem accepted_serving (positive : 0 < burstLength) (cmd : OcpCmd) (busy : cmd ≠ .idle) :
    Serving burstLength (.accepted burstLength cmd) (.accepted burstLength cmd) (responses burstLength cmd) := by
  obtain ⟨k,rfl⟩ := Nat.exists_eq_succ_of_ne_zero positive.ne'
  cases cmd with
  | idle => exact absurd rfl busy
  | rd => exact .response le_rfl
  | wr =>
    cases k with
    | zero => exact .response le_rfl
    | succ k => exact .data

attribute [local simp] selLeft selRight leftS rightS joinedM next Phase.next Phase.outstanding Cycle.leftS Cycle.rightS Cycle.joinedM

section
variable {m : OcpBurstMasterSignals lanes}

-- From the moment a master is served its own phase and the slave's move together, and the counter holds the responses
-- the slave still owes.
theorem serving_next {s : OcpBurstSlaveSignals lanes}
    (positive : 0 < burstLength) (serving : Serving burstLength p slave n) (offers : p.Offers m)
    (answers : slave.Answers m s) :
    (s.resp ≠ .null ∧ n = 1 ∧ p.next burstLength m s = .idle ∧
      (slave.next burstLength m s).outstanding = .idle) ∨
    ((s.resp = .null ∨ n ≠ 1) ∧ Serving burstLength (p.next burstLength m s)
      (slave.next burstLength m s).outstanding (if s.resp ≠ .null then decrement burstLength n else n)) := by
  cases serving with
  | request busy =>
    obtain ⟨rfl,_⟩ := offers
    have silent : s.resp = .null := answers.1
    refine .inr ⟨.inl silent,?_⟩
    cases accept : s.cmdAccept with
    | false => simpa [silent,busy,accept] using Serving.request busy
    | true => simpa [silent,busy,accept,accepted_outstanding,-Phase.outstanding] using accepted_serving positive m.cmd busy
  | @data left =>
    have silent : s.resp = .null := answers
    refine .inr ⟨.inl silent,?_⟩
    cases accept : s.dataAccept with
    | false => simpa [silent,accept] using Serving.data
    | true =>
      cases left with
      | zero => simpa [Phase.afterBeat,silent,accept] using Serving.response positive
      | succ left => simpa [Phase.afterBeat,silent,accept] using Serving.data
  | @response left bounded =>
    by_cases silent : s.resp = .null
    · refine .inr ⟨.inl silent,?_⟩
      simpa [silent] using Serving.response bounded
    · cases left with
      | zero => exact .inl ⟨silent,rfl,by simp [silent],by simp [silent]⟩
      | succ left =>
        refine .inr ⟨.inr (by simp),?_⟩
        rw [decrement_exact (Nat.succ_pos _) bounded]
        simpa [silent] using Serving.response (Nat.le_of_succ_le bounded)

theorem serving_count (serving : Serving burstLength p slave n)
    (offers : p.Offers m) (busy : m.cmd ≠ .idle) : n = responses burstLength m.cmd := by
  cases serving with
  | request _ => rw [offers.1]
  | data => exact absurd offers.1 busy
  | response _ => exact absurd offers busy

theorem leftS_selected {joined : OcpBurstSlaveSignals lanes} (selected : pending = true ∨ joined.resp = .null) :
    leftS ⟨pending,false,n⟩ joined = joined := by
  rcases selected with rfl | silent
  · rfl
  · cases joined
    simp only [leftS] at silent ⊢
    cases pending <;> simp [silent]

theorem rightS_selected {left : OcpBurstMasterSignals lanes} {joined : OcpBurstSlaveSignals lanes}
    (selected : pending = true ∨ (left.cmd = .idle ∧ joined.resp = .null)) :
    rightS ⟨false,pending,n⟩ left joined = joined := by
  rcases selected with rfl | ⟨quiet,silent⟩
  · simp
  · cases joined
    simp only [rightS] at silent ⊢
    cases pending <;> simp [quiet,silent]

section
variable (positive : 0 < burstLength)
include positive

theorem left_step (pending : Bool) (serving : Serving burstLength p slave n) (waiting : Waiting right)
    (i : Cycle lanes) (offers : p.Offers i.left) (answers : slave.Answers i.left i.joined)
    (selected : pending = true ∨ i.left.cmd ≠ .idle ∧ i.joined.resp = .null) :
    Valid burstLength ⟨next burstLength ⟨pending,false,n⟩ i.left i.right i.joined,
      p.next burstLength i.left (leftS ⟨pending,false,n⟩ i.joined),
      right.next burstLength i.right (rightS ⟨pending,false,n⟩ i.left i.joined),
      (slave.next burstLength i.left i.joined).outstanding⟩ := by
  have refused : (rightS ⟨pending,false,n⟩ i.left i.joined).cmdAccept = false := by
    rcases selected with rfl | ⟨busy,_⟩
    · simp
    · simp [busy]
  have waits := waiting_next burstLength i.right waiting refused
  rw [leftS_selected (selected.imp_right (·.2))]
  rcases serving_next positive serving offers answers with ⟨resp,rfl,done,slaveDone⟩ | ⟨more,served⟩
  · obtain rfl : pending = true := selected.resolve_right fun idle => resp idle.2
    rw [done,slaveDone]
    simpa [resp] using Valid.free .idle waits
  · have count : next burstLength ⟨pending,false,n⟩ i.left i.right i.joined =
        ⟨true,false,if i.joined.resp ≠ .null then decrement burstLength n else n⟩ := by
      by_cases busy : i.left.cmd = .idle
      · obtain rfl : pending = true := selected.resolve_right fun idle => idle.1 busy
        rcases more with silent | several
        · simp [busy,silent]
        · simp [busy,several]
      · have same := serving_count serving offers busy
        rcases more with silent | several
        · simp [busy,silent,← same]
        · simp [busy,several,← same]
    rw [count]
    exact .left served waits

theorem right_step (pending : Bool) (waiting : Waiting left) (serving : Serving burstLength p slave n)
    (i : Cycle lanes) (offers : p.Offers i.right) (answers : slave.Answers i.right i.joined)
    (selected : pending = true ∨ (i.left.cmd = .idle ∧ i.joined.resp = .null) ∧ i.right.cmd ≠ .idle) :
    Valid burstLength ⟨next burstLength ⟨false,pending,n⟩ i.left i.right i.joined,
      left.next burstLength i.left (leftS ⟨false,pending,n⟩ i.joined),
      p.next burstLength i.right (rightS ⟨false,pending,n⟩ i.left i.joined),
      (slave.next burstLength i.right i.joined).outstanding⟩ := by
  have waits : Waiting (left.next burstLength i.left (leftS ⟨false,pending,n⟩ i.joined)) := by
    rcases selected with rfl | ⟨⟨quiet,_⟩,_⟩
    · exact waiting_next burstLength i.left waiting (by simp)
    · cases waiting <;> simpa [quiet] using Waiting.idle
  rw [rightS_selected (selected.imp_right (·.1))]
  rcases serving_next positive serving offers answers with ⟨resp,rfl,done,slaveDone⟩ | ⟨more,served⟩
  · obtain rfl : pending = true := selected.resolve_right fun idle => resp idle.1.2
    rw [done,slaveDone]
    simpa [resp] using Valid.free waits .idle
  · have count : next burstLength ⟨false,pending,n⟩ i.left i.right i.joined =
        ⟨false,true,if i.joined.resp ≠ .null then decrement burstLength n else n⟩ := by
      rcases selected with rfl | ⟨⟨quiet,silent⟩,busy⟩
      · by_cases reload : selRight ⟨false,true,n⟩ i.left i.right = true
        · have busy : i.right.cmd ≠ .idle := by
            rintro idle
            simp [idle] at reload
          have same := serving_count serving offers busy
          rcases more with silent | several
          · simp [silent,← same]
          · simp [several,← same]
        · rcases more with silent | several
          · simp [reload,silent,-selRight]
          · simp [reload,several,-selRight]
      · have same := serving_count serving offers busy
        simp [busy,quiet,silent,← same]
    rw [count]
    exact .right waits served

theorem free_step (left right : Phase) (n : Nat) (i : Cycle lanes) (leftWaiting : Waiting left) (rightWaiting : Waiting right)
    (admitted : (system burstLength lanes).admits ⟨⟨false,false,n⟩,left,right,.idle⟩ i) :
    Valid burstLength ((system burstLength lanes).next ⟨⟨false,false,n⟩,left,right,.idle⟩ i) := by
  obtain ⟨leftOffers,rightOffers,answers⟩ := admitted
  have silent : i.joined.resp = .null := answers.1
  simp only [system,Cycle.joinedM,Cycle.leftS,Cycle.rightS] at answers ⊢
  by_cases leftQuiet : i.left.cmd = .idle
  · rw [waiting_quiet burstLength leftWaiting leftQuiet]
    by_cases rightQuiet : i.right.cmd = .idle
    · rw [waiting_quiet burstLength rightWaiting rightQuiet]
      simpa [leftQuiet,rightQuiet,silent] using
        @Valid.free burstLength _ _ n .idle .idle
    · have forwarded : joinedM ⟨false,false,n⟩ i.left i.right = i.right := by
        simp [leftQuiet,rightQuiet]
      obtain ⟨presented,same⟩ := waiting_presents burstLength rightWaiting rightOffers
        (rightS ⟨false,false,n⟩ i.left i.joined)
      have stepped := right_step positive false .idle (.request rightQuiet) i presented (forwarded ▸ answers)
        (.inr ⟨⟨leftQuiet,silent⟩,rightQuiet⟩)
      rw [waiting_quiet burstLength .idle leftQuiet] at stepped
      have reload : next burstLength ⟨false,false,n⟩ i.left i.right i.joined =
          next burstLength ⟨false,false,responses burstLength i.right.cmd⟩ i.left i.right i.joined := by
        simp [leftQuiet,rightQuiet,silent]
      rw [forwarded,same,reload]
      exact stepped
  · have forwarded : joinedM ⟨false,false,n⟩ i.left i.right = i.left := by
      simp [leftQuiet]
    obtain ⟨presented,same⟩ := waiting_presents burstLength leftWaiting leftOffers (leftS ⟨false,false,n⟩ i.joined)
    have stepped := left_step positive false (.request leftQuiet) rightWaiting i presented (forwarded ▸ answers)
      (.inr ⟨leftQuiet,silent⟩)
    have reload : next burstLength ⟨false,false,n⟩ i.left i.right i.joined =
        next burstLength ⟨false,false,responses burstLength i.left.cmd⟩ i.left i.right i.joined := by
      simp [leftQuiet,silent]
    rw [forwarded,same,reload]
    exact stepped

theorem preserves_valid (s : Joined) (i : Cycle lanes)
    (valid : Valid burstLength s) (admitted : (system burstLength lanes).admits s i) :
    Valid burstLength ((system burstLength lanes).next s i) := by
  cases valid with
  | free leftWaiting rightWaiting => exact free_step positive _ _ _ i leftWaiting rightWaiting admitted
  | @left left slave n right serving waiting =>
    obtain ⟨leftOffers,rightOffers,answers⟩ := admitted
    have forwarded : i.joinedM ⟨⟨true,false,n⟩,left,right,slave⟩ = i.left := by
      simp
    rw [forwarded] at answers
    have stepped := left_step positive true serving waiting i leftOffers answers (.inl rfl)
    simpa [system] using stepped
  | @right left right slave n waiting serving =>
    obtain ⟨leftOffers,rightOffers,answers⟩ := admitted
    have forwarded : i.joinedM ⟨⟨false,true,n⟩,left,right,slave⟩ = i.right := by
      simp
    rw [forwarded] at answers
    have stepped := right_step positive true waiting serving i rightOffers answers (.inl rfl)
    simpa [system] using stepped

theorem reached_valid (path : Reached (system burstLength lanes) s) : Valid burstLength s :=
  path.invariant (fun _ begun => begun ▸ .free .idle .idle) (preserves_valid positive)
end

def accepted (m : OcpBurstMasterSignals lanes) (s : OcpBurstSlaveSignals lanes) : List (OcpBurstMasterSignals lanes) :=
  if m.cmd ≠ .idle ∧ s.cmdAccept then [m] else []

def slaveCommands (s : Joined) (i : Cycle lanes) : List (OcpBurstMasterSignals lanes) :=
  accepted (i.joinedM s) i.joined

def masterCommands (s : Joined) (i : Cycle lanes) : List (OcpBurstMasterSignals lanes) :=
  accepted i.left (i.leftS s) ++ accepted i.right (i.rightS s)

def offersBeat (p : Phase) (m : OcpBurstMasterSignals lanes) : Prop := m.cmd = .wr ∨ ∃ left, p = .data left
def awaits (p : Phase) : Prop := ∃ left, p = .response (left+1)

structure Routed (s : Joined) (i : Cycle lanes) : Prop where
  once : slaveCommands s i = masterCommands s i
  single : (slaveCommands s i).length ≤ 1
  delivered : i.joined.resp ≠ .null →
    (awaits s.left ∧ i.leftS s = i.joined ∧ (i.rightS s).resp = .null) ∨
    (awaits s.right ∧ i.rightS s = i.joined ∧ (i.leftS s).resp = .null)
  leftResponse : (i.leftS s).resp ≠ .null → awaits s.left
  rightResponse : (i.rightS s).resp ≠ .null → awaits s.right
  leftCommand : i.left.cmd ≠ .idle → (i.leftS s).cmdAccept = true → i.joinedM s = i.left ∧ i.joined.cmdAccept = true
  rightCommand : i.right.cmd ≠ .idle → (i.rightS s).cmdAccept = true → i.joinedM s = i.right ∧ i.joined.cmdAccept = true
  leftBeat : offersBeat s.left i.left → (i.leftS s).dataAccept = true → i.joinedM s = i.left ∧ i.joined.dataAccept = true
  rightBeat : offersBeat s.right i.right → (i.rightS s).dataAccept = true → i.joinedM s = i.right ∧ i.joined.dataAccept = true

theorem serving_awaits (serving : Serving burstLength p slave n)
    (answers : slave.Answers m s) (resp : s.resp ≠ .null) : awaits p := by
  cases serving with
  | request _ => exact absurd answers.1 resp
  | data => exact absurd answers resp
  | response _ => exact ⟨_,rfl⟩

theorem waiting_beat (waiting : Waiting p) (beat : offersBeat p m) : m.cmd = .wr := by
  rcases beat with busy | ⟨left,rfl⟩
  · exact busy
  · cases waiting
end

theorem valid_routed (s : Joined) (i : Cycle lanes) (valid : Valid burstLength s)
    (admitted : (system burstLength lanes).admits s i) : Routed s i := by
  have single : ∀ m (t : OcpBurstSlaveSignals lanes), (accepted m t).length ≤ 1 := by
    intro m t
    unfold accepted
    split <;> simp
  obtain ⟨leftOffers,rightOffers,answers⟩ := admitted
  cases valid with
  | @free left right n leftWaiting rightWaiting =>
    have silent : i.joined.resp = .null := answers.1
    refine ⟨?_,single _ _,absurd silent,?_,?_,?_,?_,?_,?_⟩
    · by_cases leftQuiet : i.left.cmd = .idle <;> by_cases rightQuiet : i.right.cmd = .idle <;>
        simp [slaveCommands,masterCommands,accepted,leftQuiet,rightQuiet]
    · simp
    · simp
    · intro busy accept
      simpa [busy] using accept
    · intro busy accept
      by_cases quiet : i.left.cmd = .idle <;>
        simp_all
    · intro beat accept
      have busy := waiting_beat leftWaiting beat
      simpa [busy] using accept
    · intro beat accept
      have busy := waiting_beat rightWaiting beat
      by_cases quiet : i.left.cmd = .idle <;>
        simp_all
  | @left left slave n right serving waiting =>
    have forwarded : joinedM ⟨true,false,n⟩ i.left i.right = i.left := by simp
    have seen : leftS ⟨true,false,n⟩ i.joined = i.joined := leftS_selected (.inl rfl)
    refine ⟨?_,single _ _,?_,?_,?_,?_,?_,?_,?_⟩
    · simp [slaveCommands,masterCommands,accepted]
    · intro resp
      exact .inl ⟨serving_awaits serving answers resp,seen,by simp⟩
    · intro resp
      exact serving_awaits serving answers (by simpa [seen] using resp)
    · simp
    · intro _ accept
      exact ⟨forwarded,by simpa [seen] using accept⟩
    · simp
    · intro _ accept
      exact ⟨forwarded,by simpa [seen] using accept⟩
    · simp
  | @right left right slave n waiting serving =>
    have forwarded : joinedM ⟨false,true,n⟩ i.left i.right = i.right := by simp
    have seen : rightS ⟨false,true,n⟩ i.left i.joined = i.joined := rightS_selected (.inl rfl)
    refine ⟨?_,single _ _,?_,?_,?_,?_,?_,?_,?_⟩
    · simp [slaveCommands,masterCommands,accepted]
    · intro resp
      exact .inr ⟨serving_awaits serving answers resp,seen,by simp⟩
    · simp
    · intro resp
      exact serving_awaits serving answers (by simpa [seen] using resp)
    · simp
    · intro _ accept
      exact ⟨forwarded,by simpa [seen] using accept⟩
    · simp
    · intro _ accept
      exact ⟨forwarded,by simpa [seen] using accept⟩

theorem priority_join_routes (positive : 0 < burstLength) :
    (∀ s i, Reached (system burstLength lanes) s → (system burstLength lanes).admits s i → Routed s i) ∧
    ∀ inputs, (system burstLength lanes).Admits initial inputs →
      (system burstLength lanes).record slaveCommands initial inputs =
        (system burstLength lanes).record masterCommands initial inputs := by
  have routed : ∀ s i, Reached (system burstLength lanes) s → (system burstLength lanes).admits s i → Routed s i :=
    fun s i path admitted => valid_routed s i (reached_valid positive path) admitted
  exact ⟨routed,fun inputs => (Reached.start rfl).record_eq (fun s i path admitted => (routed s i path admitted).once) inputs⟩

-- Both masters ask for a read of two beats at once. The left one is served first; the held right command follows when
-- both beats have come back.
def collision : List (Cycle 4) :=
  [⟨.read 16,.read 64,.accept⟩,⟨.quiet,.read 64,.answer .dva⟩,⟨.quiet,.read 64,.answer .dva⟩,⟨.quiet,.read 64,.accept⟩]

theorem priority_join_routes_collision : (system 2 4).Admits initial collision ∧
    (system 2 4).record slaveCommands initial collision = (system 2 4).record masterCommands initial collision :=
  ⟨by decide,(priority_join_routes (by decide)).2 collision (by decide)⟩

def ForeignAcceptHidden (s : Joined) (i : Cycle lanes) : Prop :=
  i.right.cmd ≠ .idle → i.joinedM s = i.right → i.left.cmd = .idle → (i.leftS s).cmdAccept = false

-- In the first cycle of a right command the left port still mirrors the slave's accept signals, although the left
-- master has issued nothing.
theorem left_mirrors_right_accept : ¬∀ s i, Reached (system 4 4) s → (system 4 4).admits s i → ForeignAcceptHidden s i := by
  intro hidden
  have seen := hidden initial ⟨.quiet,.read 16,.accept⟩ (.start rfl) (by decide)
    (by decide) rfl rfl
  cases seen
end Patmos.OcpBurstPriorityJoin
