import Patmos.OcpSignals
namespace Patmos.OcpBurst
-- OCPburst as the handbook states it. A command is held until it is accepted, the remaining write data follows beat by
-- beat, a read is answered once per beat and a write once, and no command is issued while a burst is outstanding.
inductive Phase where
  | idle
  | request (cmd : OcpCmd)
  | data (left : Nat)
  | response (left : Nat)
  deriving DecidableEq, Repr

def Phase.Offers (p : Phase) (m : OcpBurstMasterSignals lanes) : Prop :=
  match p with
  | .idle => m.cmd = .wr → m.dataValid = true
  | .request cmd => m.cmd = cmd ∧ (cmd = .wr → m.dataValid = true)
  | .data _ => m.cmd = .idle ∧ m.dataValid = true
  | .response _ => m.cmd = .idle

instance (p : Phase) (m : OcpBurstMasterSignals lanes) : Decidable (p.Offers m) := by
  cases p <;> unfold Phase.Offers <;> infer_instance

-- The beat that comes with a write command is already accepted with it.
def Phase.afterBeat : Nat → Phase
  | 0 => .response 1
  | left+1 => .data (left+1)

def Phase.accepted (burstLength : Nat) : OcpCmd → Phase
  | .idle => .idle
  | .rd => .response burstLength
  | .wr => .afterBeat (burstLength-1)

def Phase.next (burstLength : Nat) (p : Phase) (m : OcpBurstMasterSignals lanes)
    (s : OcpBurstSlaveSignals lanes) : Phase :=
  match p with
  | .idle | .request _ =>
    if m.cmd = .idle then .idle
    else if s.cmdAccept then .accepted burstLength m.cmd else .request m.cmd
  | .data left => if s.dataAccept then .afterBeat (left-1) else .data left
  | .response left =>
    if s.resp = .null then .response left
    else if left ≤ 1 then .idle else .response (left-1)

-- A slave only knows the commands it has accepted.
def Phase.outstanding : Phase → Phase
  | .request _ => .idle
  | p => p

-- Responses answer an accepted burst, earliest in the cycle after its last beat; a write command and its first beat are
-- accepted together.
def Phase.Answers (p : Phase) (m : OcpBurstMasterSignals lanes) (s : OcpBurstSlaveSignals lanes) : Prop :=
  match p with
  | .response _ => True
  | .data _ => s.resp = .null
  | _ => s.resp = .null ∧ (m.cmd = .wr → s.dataAccept = s.cmdAccept)

instance (p : Phase) (m : OcpBurstMasterSignals lanes) (s : OcpBurstSlaveSignals lanes) :
    Decidable (p.Answers m s) := by
  cases p <;> unfold Phase.Answers <;> infer_instance

-- A master whose command the slave has not seen.
inductive Waiting : Phase → Prop where
  | idle : Waiting .idle
  | request : cmd ≠ .idle → Waiting (.request cmd)

theorem waiting_next {s : OcpBurstSlaveSignals lanes} (burstLength : Nat) (m : OcpBurstMasterSignals lanes)
    (waiting : Waiting p) (refused : s.cmdAccept = false) : Waiting (p.next burstLength m s) := by
  have waits : Waiting (if m.cmd = .idle then .idle else .request m.cmd) := by
    split
    · exact .idle
    · exact .request (by assumption)
  cases waiting <;> simpa [Phase.next,refused] using waits

section
variable {m : OcpBurstMasterSignals lanes}

theorem waiting_presents (burstLength : Nat) (waiting : Waiting p) (offers : p.Offers m) (s : OcpBurstSlaveSignals lanes) :
    (Phase.request m.cmd).Offers m ∧ p.next burstLength m s = (Phase.request m.cmd).next burstLength m s := by
  cases waiting with
  | idle => exact ⟨⟨rfl,offers⟩,rfl⟩
  | request _ =>
    obtain ⟨rfl,valid⟩ := offers
    exact ⟨⟨rfl,valid⟩,rfl⟩

theorem waiting_quiet (burstLength : Nat) (waiting : Waiting p)
    (quiet : m.cmd = .idle) (s : OcpBurstSlaveSignals lanes) : p.next burstLength m s = .idle := by
  cases waiting <;> simp [Phase.next,quiet]

theorem waiting_accepted {s : OcpBurstSlaveSignals lanes} (burstLength : Nat)
    (waiting : Waiting p) (busy : m.cmd ≠ .idle) (accept : s.cmdAccept = true) :
    p.next burstLength m s = .accepted burstLength m.cmd := by
  cases waiting <;> simp [Phase.next,busy,accept]
end
end Patmos.OcpBurst
