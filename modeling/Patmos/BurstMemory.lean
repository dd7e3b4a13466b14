import Patmos.OcpSignals
namespace Patmos.BurstMemory
-- A main memory at an OCPburst port. It takes a command and each beat after any delay and answers after any delay; the
-- response to a read beat carries the word of that beat unless it is an error.
inductive Phase where
  | idle
  | read (addr beat : Nat)
  | write (addr beat : Nat)
  | ack
  deriving DecidableEq, Repr

structure State (lanes : Nat) where
  ram : Nat → Word lanes
  phase : Phase

variable {lanes : Nat}

def merge (old new : Word lanes) (byteEn : ByteEn lanes) : Word lanes := fun i => if byteEn i then new i else old i

@[simp] theorem merge_none (old new : Word lanes) : merge old new (fun _ => false) = old := rfl
@[simp] theorem merge_all (old new : Word lanes) : merge old new (fun _ => true) = new := rfl

section
variable (ram : Nat → Word lanes) (addr : Nat) (data : Word lanes) (byteEn : ByteEn lanes) (word : Nat)

def store : Nat → Word lanes := Function.update ram (addr/lanes) (merge (ram (addr/lanes)) data byteEn)

theorem store_apply :
    store ram addr data byteEn word = if word = addr/lanes then merge (ram word) data byteEn else ram word := by
  unfold store
  by_cases here : word = addr/lanes
  · subst here
    simp
  · simp [here]
end

section
variable (burstLength : Nat) (m : State lanes) (master : OcpBurstMasterSignals lanes) (s : OcpBurstSlaveSignals lanes)

def State.Answers : Prop :=
  match m.phase with
  | .idle => s.resp = .null ∧ (master.cmd = .wr → s.dataAccept = s.cmdAccept)
  | .read addr beat => s.resp ≠ .fail ∧ (s.resp = .dva → s.data = m.ram (addr/lanes+beat))
  | .write _ _ => s.resp = .null
  | .ack => s.resp ≠ .fail

instance (m : State lanes) (master : OcpBurstMasterSignals lanes) (s : OcpBurstSlaveSignals lanes) :
    Decidable (m.Answers master s) := by
  unfold State.Answers
  split <;> infer_instance

def afterBeat (burstLength addr beat : Nat) : Phase := if beat = burstLength then .ack else .write addr beat

def State.next : State lanes :=
  match m.phase with
  | .idle =>
    if s.cmdAccept then
      match master.cmd with
      | .idle => m
      | .rd => {m with phase := .read master.addr 0}
      | .wr => ⟨store m.ram master.addr master.data master.dataByteEn,afterBeat burstLength master.addr 1⟩
    else m
  | .read addr beat =>
    if s.resp = .null then m else {m with phase := if beat+1 = burstLength then .idle else .read addr (beat+1)}
  | .write addr beat =>
    if s.dataAccept ∧ master.dataValid then
      ⟨store m.ram (addr+beat*lanes) master.data master.dataByteEn,afterBeat burstLength addr (beat+1)⟩
    else m
  | .ack => if s.resp = .null then m else {m with phase := .idle}
end

section
variable {m : State lanes} {master : OcpBurstMasterSignals lanes} (burstLength : Nat) (s : OcpBurstSlaveSignals lanes) (idle : m.phase = .idle)
include idle

theorem next_unused (quiet : master.cmd = .idle) : m.next burstLength master s = m := by
  simp [State.next,idle,quiet]

theorem next_requested (command : master.cmd = .rd) :
    m.next burstLength master s = ⟨m.ram,if s.cmdAccept then .read master.addr 0 else .idle⟩ := by
  cases m
  cases accept : s.cmdAccept <;> simp_all [State.next]
end

section
variable {m : State lanes} (burstLength : Nat) (master : OcpBurstMasterSignals lanes) (s : OcpBurstSlaveSignals lanes)

theorem next_beat (reading : m.phase = .read addr beat) :
    m.next burstLength master s = ⟨m.ram,if s.resp = .null then .read addr beat
      else if beat+1 = burstLength then .idle else .read addr (beat+1)⟩ := by
  cases m
  by_cases silent : s.resp = .null <;> simp_all [State.next]

theorem next_acknowledged (written : m.phase = .ack) :
    m.next burstLength master s = ⟨m.ram,if s.resp = .null then .ack else .idle⟩ := by
  cases m
  by_cases silent : s.resp = .null <;> simp_all [State.next]
end

theorem next_written {m : State lanes} {master : OcpBurstMasterSignals lanes} {s : OcpBurstSlaveSignals lanes} (burstLength : Nat)
    (stage : m.phase = .idle ∧ master.cmd = .wr ∧ master.addr = addr ∧ s.cmdAccept = true ∧ beat = 0 ∨
      m.phase = .write addr beat ∧ s.dataAccept = true ∧ master.dataValid = true) :
    m.next burstLength master s =
      ⟨store m.ram (addr+beat*lanes) master.data master.dataByteEn,afterBeat burstLength addr (beat+1)⟩ := by
  rcases stage with ⟨idle,command,rfl,accept,rfl⟩ | ⟨writing,accept,valid⟩
  · simp [State.next,idle,command,accept]
  · simp [State.next,writing,accept,valid]

structure Beat (lanes : Nat) where
  addr : Nat
  data : Word lanes
  byteEn : ByteEn lanes

def Beat.write (ram : Nat → Word lanes) : Option (Beat lanes) → Nat → Word lanes
  | none => ram
  | some beat => store ram beat.addr beat.data beat.byteEn

section
variable (burstLength : Nat) (m : State lanes) (master : OcpBurstMasterSignals lanes) (s : OcpBurstSlaveSignals lanes)

def State.taken : Option (Beat lanes) :=
  match m.phase with
  | .idle => if s.cmdAccept ∧ master.cmd = .wr then some ⟨master.addr,master.data,master.dataByteEn⟩ else none
  | .write addr beat =>
    if s.dataAccept ∧ master.dataValid then some ⟨addr+beat*lanes,master.data,master.dataByteEn⟩ else none
  | _ => none

theorem ram_next : (m.next burstLength master s).ram = Beat.write m.ram (m.taken master s) := by
  cases phase : m.phase with
  | idle => cases accept : s.cmdAccept <;> cases command : master.cmd <;> simp [State.next,State.taken,Beat.write,phase,accept,command]
  | read addr beat => by_cases silent : s.resp = .null <;> simp [State.next,State.taken,Beat.write,phase,silent]
  | write addr beat =>
    by_cases accept : s.dataAccept ∧ master.dataValid <;> simp [State.next,State.taken,Beat.write,phase,accept]
  | ack => by_cases silent : s.resp = .null <;> simp [State.next,State.taken,Beat.write,phase,silent]
end
end Patmos.BurstMemory
