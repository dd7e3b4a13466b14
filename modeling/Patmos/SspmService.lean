import Patmos.Sspm
namespace Patmos.Sspm
open Transition Register PortHistory SharedMemory SspmConnector

variable {c : Config}

def word (m : OcpCoreMasterSignals 4) : Nat := MemSpm.index m.addr

def Gives (m : OcpCoreMasterSignals 4) (result : Word 4) (mem : Cell → BitVec 8) : Prop :=
  m.cmd = .rd → ∀ b, result b = mem (word m,b)

def command (m : SspmM) : OcpCoreMasterSignals 4 := ⟨if m.we then .wr else .rd,m.addr,m.data,m.byteEn⟩

def waiting (d : SspmAegean c) (i : Fin c.nCores) : Option (OcpCoreMasterSignals 4) :=
  if (d.connectors i).state = .sIdle then none else some (command (d.connectors i).m)

def answering (d : SspmAegean c) (i : Fin c.nCores) : Option (Word 4) :=
  if (d.connectors i).respReg = .dva then some d.mem.data else none

structure State (c : Config) where
  device : SspmAegean c
  ports : Ports (Fin c.nCores) (OcpCoreMasterSignals 4) (Word 4)
  origin : Cell → BitVec 8

structure Cycle (c : Config) where
  m : Fin c.nCores → OcpCoreMasterSignals 4
  stray : Stray

def served (d : SspmAegean c) (stray : Stray) (i : Fin c.nCores) : Bool :=
  (d.connectors i).state = .sWaiting && (d.connectors i).serves (d.enable stray i)

-- A write takes effect whenever the memory is written, a read when it is served.
def takes (d : SspmAegean c) (stray : Stray) (i : Fin c.nCores) : Bool :=
  d.currentCore = i && ((d.connectors i).writeEnableReg || served d stray i)

def effects (d : SspmAegean c) (x : Cycle c) : List (Access (Fin c.nCores) (OcpCoreMasterSignals 4) (Word 4)) :=
  (List.finRange c.nCores).flatMap fun i =>
    if takes d x.stray i then [⟨i,command (d.connectors i).m,(d.next x.m x.stray).mem.data⟩] else []

def system (c : Config) : System (State c) (Cycle c) where
  start s := s.device.nextCore = 1 ∧ s.device.currentCore = 0 ∧ s.device.state = .sIdle ∧ s.device.syncCounter = 0 ∧
    s.device.syncUsed = false ∧ s.device.syncCore = 0 ∧
    (∀ i, (s.device.connectors i).respReg = .null ∧ (s.device.connectors i).writeEnableReg = false ∧
      (s.device.connectors i).state = .sIdle ∧ (s.device.connectors i).syncReqReg = false) ∧
    s.ports = .empty ∧ ∀ cell, s.origin cell = s.device.mem.syncMem cell.1 cell.2
  admits s x := ∀ i, (x.m i).cmd ≠ .idle → s.ports.Ready (answering s.device) i
  next s x := {
    device := s.device.next x.m x.stray
    ports := s.ports.next (issued x.m) (effects s.device x) (answering s.device)
    origin := s.origin }

abbrev State.moved (s : State c) (x : Cycle c) : SspmAegean c := s.device.next x.m x.stray

-- The extended slot of a core: what takes effect while it lasts is its own.
def Secluded (s : State c) : Prop :=
  ∀ inputs, (system c).Admits s inputs → (∀ k < inputs.length, ((system c).run s (inputs.take k)).device.state = .sSync) →
    ∃ added, ((system c).run s inputs).ports.history = s.ports.history ++ added ∧
      ∀ a ∈ added, a.port.val = s.device.currentCore

structure Scheduled (s : State c) : Prop where
  current : s.device.currentCore < c.nCores
  alone : ∀ stray i j, s.device.enable stray i = true → s.device.enable stray j = true → i = j
  orderly : s.ports.Orderly (waiting s.device) (answering s.device)
  sequential : Sequential (writesTo word) Gives s.origin s.ports.history
  secluded : s.device.state = .sSync → Secluded s

def Answered (m : System (State c) (Cycle c)) (s : State c) : Prop :=
  ∀ inputs, (∀ t, m.Follows s inputs t) → ∀ i, (waiting s.device i).isSome = true →
    ∃ t, (answering (m.states s inputs t).device i).isSome = true

-- The synchronisation address is only read.
def Reads (_ : State c) (x : Cycle c) : Prop := ∀ i, (x.m i).cmd = .wr → SspmConnector.syncs (x.m i) = false

def log (s : State c) : List (Cell × BitVec 8) := s.ports.history.flatMap fun a => writesTo word a.command

structure Valid (s : State c) : Prop where
  current : s.device.currentCore < c.nCores
  following : s.device.nextCore = (s.device.currentCore+1) % c.nCores
  holder : s.device.syncCore < c.nCores
  unused : c.singleExtendedSlot = false → s.device.syncUsed = false
  quiet : ∀ i, (s.device.connectors i).state = .sIdle →
    (s.device.connectors i).writeEnableReg = false ∧ (s.device.connectors i).syncReqReg = false
  reading : ∀ i, (s.device.connectors i).syncReqReg = true → (s.device.connectors i).writeEnableReg = false
  entered : ∀ i : Fin c.nCores, s.device.state = .sIdle → s.device.currentCore = i → (s.device.connectors i).state = .sWaiting →
    (s.device.connectors i).prevConnectorEnable1 = false
  orderly : s.ports.Orderly (waiting s.device) (answering s.device)
  memory : ∀ cell, s.device.mem.syncMem cell.1 cell.2 = latest s.origin (log s) cell
  sequential : Sequential (writesTo word) Gives s.origin s.ports.history

section Connectors
variable {d : SspmAegean c} {x : Cycle c} {i : Fin c.nCores}

theorem enable_current (enabled : d.enable stray i = true) : d.currentCore = i := by
  simp only [SspmAegean.enable,Bool.and_eq_true,decide_eq_true_eq] at enabled
  exact enabled.1

theorem serves_enable {k : SspmConnector} (serves : k.serves enable = true) : enable = true := by
  cases enable with
  | true => rfl
  | false => simp [SspmConnector.serves,SspmConnector.plain,SspmConnector.synchronised] at serves

theorem served_current (serving : served d stray i = true) : d.currentCore = i := by
  simp only [served,Bool.and_eq_true] at serving
  exact enable_current (serves_enable serving.2)

theorem selected_current (here : d.currentCore = i) (stray : Stray) :
    d.selected stray = ⟨(d.connectors i).m,(d.connectors i).syncReqReg⟩ := by
  have inside : d.currentCore < c.nCores := here ▸ i.isLt
  have same : (⟨d.currentCore,inside⟩ : Fin c.nCores) = i := Fin.ext here
  rw [SspmAegean.selected,dif_pos inside,same]

theorem served_plain (here : d.currentCore = i) (pending : (d.connectors i).state = .sWaiting)
    (unsynchronised : (d.connectors i).syncReqReg = false) : served d stray i = true := by
  have selected := selected_current here stray
  have enabled : d.enable stray i = true := by
    cases state : d.state <;> simp [SspmAegean.enable,SspmAegean.refuses,here,selected,state,unsynchronised]
  simp [served,pending,serves,plain,enabled,unsynchronised]

theorem next_connector (i : Fin c.nCores) :
    (d.next x.m x.stray).connectors i = (d.connectors i).next (x.m i) (d.enable x.stray i) := rfl

theorem answering_next (i : Fin c.nCores) : answering (d.next x.m x.stray) i =
    if served d x.stray i then some (d.next x.m x.stray).mem.data else none := by
  unfold answering served
  rw [next_connector]
  cases state : (d.connectors i).state with
  | sIdle => simp [next,state]
  | sWaiting => by_cases serves : (d.connectors i).serves (d.enable x.stray i) = true <;> simp [next,state]

theorem waiting_next (ready : (x.m i).cmd ≠ .idle → waiting d i = none) :
    (waiting d i).toList ++ (issued x.m i).toList =
      (if served d x.stray i then (waiting d i).toList else []) ++ (waiting (d.next x.m x.stray) i).toList := by
  unfold waiting issued served at *
  rw [next_connector]
  cases state : (d.connectors i).state with
  | sIdle =>
    obtain ⟨cmd,_,_,_⟩ := x.m i
    cases cmd <;> simp [next,state,command,m]
  | sWaiting =>
    have silent : (x.m i).cmd = .idle := by
      by_contra issuing
      have none := ready issuing
      simp [state] at none
    by_cases serves : (d.connectors i).serves (d.enable x.stray i) = true
    · simp [next,state,serves,silent]
    · have kept : ((d.connectors i).next (x.m i) (d.enable x.stray i)).m = (d.connectors i).m := by
        simp [next,m,state,serves]
      have still : ((d.connectors i).next (x.m i) (d.enable x.stray i)).state = .sWaiting := by
        simp [next,state,serves]
      simp [serves,silent,kept,still]
end Connectors

section Service
variable {s : State c} {x : Cycle c} {i : Fin c.nCores}

-- Only what is served takes effect: a write that waits in its slot asks for synchronisation.
theorem takes_served (valid : Valid s) : takes s.device x.stray i = served s.device x.stray i := by
  rw [Bool.eq_iff_iff]
  constructor
  · intro taking
    simp only [takes,Bool.and_eq_true,decide_eq_true_eq,Bool.or_eq_true] at taking
    obtain ⟨here,writing | serving⟩ := taking
    · have pending : (s.device.connectors i).state = .sWaiting := by
        cases state : (s.device.connectors i).state with
        | sIdle =>
          rw [(valid.quiet i state).1] at writing
          cases writing
        | sWaiting => rfl
      have unsynchronised : (s.device.connectors i).syncReqReg = false := by
        cases asks : (s.device.connectors i).syncReqReg with
        | false => rfl
        | true =>
          rw [valid.reading i asks] at writing
          cases writing
      exact served_plain here pending unsynchronised
    · exact serving
  · intro serving
    simp [takes,serving,served_current serving]

theorem effects_current (valid : Valid s) (here : s.device.currentCore = i) : effects s.device x =
    if served s.device x.stray i then
      [⟨i,command (s.device.connectors i).m,(s.moved x).mem.data⟩] else [] := by
  rw [effects,CompareAndSwap.flatMap_single _ _ (List.nodup_finRange _) (List.mem_finRange i) fun j other => ?_]
  · simp only [takes_served valid]
  · rw [takes_served valid]
    exact if_neg fun serving => other (Fin.ext ((served_current serving).symm.trans here))

theorem ofPort_effects (valid : Valid s) (i : Fin c.nCores) : ofPort (effects s.device x) i =
    if served s.device x.stray i then
      [⟨i,command (s.device.connectors i).m,(s.moved x).mem.data⟩] else [] := by
  rw [effects_current valid (i := ⟨s.device.currentCore,valid.current⟩) rfl]
  by_cases here : s.device.currentCore = i
  · have same : (⟨s.device.currentCore,valid.current⟩ : Fin c.nCores) = i := Fin.ext here
    rw [same]
    split
    case isTrue => rw [ofPort_single,if_pos rfl]
    case isFalse => rfl
  · have other : i ≠ ⟨s.device.currentCore,valid.current⟩ := fun same => here (congrArg Fin.val same).symm
    rw [if_neg fun serving => here (served_current serving)]
    split
    case isTrue => rw [ofPort_single,if_neg other]
    case isFalse => rfl

theorem orderly_step (valid : Valid s) (admitted : (system c).admits s x) :
    ((system c).next s x).ports.Orderly (waiting ((system c).next s x).device) (answering ((system c).next s x).device) := by
  refine valid.orderly.next (fun i => ?_) (fun i => ?_)
  · rw [waiting_next fun issuing => valid.orderly.ready (admitted i issuing),ofPort_effects valid]
    congr 1
    split
    case isTrue serving =>
      have pending : (s.device.connectors i).state = .sWaiting := by
        simp only [served,Bool.and_eq_true,decide_eq_true_eq] at serving
        exact serving.1
      simp [waiting,pending]
    case isFalse => rfl
  · change _ = (answering (s.moved x) i).toList
    rw [answering_next,ofPort_effects valid]
    split <;> rfl

theorem mem_next (here : s.device.currentCore = i) (cell : Cell) :
    (s.moved x).mem.syncMem cell.1 cell.2 =
      latest (fun cell : Cell => s.device.mem.syncMem cell.1 cell.2)
        (writesTo word (command (s.device.connectors i).m)) cell := by
  rw [latest_writesTo]
  have mask : (fun b => (s.device.connectors i).m.we && (s.device.connectors i).m.byteEn b) =
      Spm.stmsk (command (s.device.connectors i).m) := by
    funext b
    cases writing : (s.device.connectors i).m.we <;> simp [Spm.stmsk,command,writing]
  change (MemSpm.next s.device.mem (s.device.selected x.stray).m).syncMem cell.1 cell.2 = _
  rw [selected_current here,MemSpm.next,mask]
  rfl

theorem data_next (here : s.device.currentCore = i) (read : (command (s.device.connectors i).m).cmd = .rd) (b : Fin 4) :
    (s.moved x).mem.data b = s.device.mem.syncMem (word (command (s.device.connectors i).m)) b := by
  have place : (s.moved x).mem.rdAddrReg = word (command (s.device.connectors i).m) := by
    change MemSpm.index (s.device.selected x.stray).m.addr = _
    rw [selected_current here]
    rfl
  have kept := mem_next (x := x) here (word (command (s.device.connectors i).m),b)
  rw [writesTo_other word (by rw [read]; decide)] at kept
  rw [MemSpm.data,place]
  exact kept

theorem log_step : log ((system c).next s x) = log s ++ (effects s.device x).flatMap fun a => writesTo word a.command :=
  List.flatMap_append

theorem memory_step (valid : Valid s) (cell : Cell) :
    (s.moved x).mem.syncMem cell.1 cell.2 = latest s.origin (log ((system c).next s x)) cell := by
  have same : (fun cell : Cell => s.device.mem.syncMem cell.1 cell.2) = latest s.origin (log s) := funext valid.memory
  have here : s.device.currentCore = (⟨s.device.currentCore,valid.current⟩ : Fin c.nCores).val := rfl
  generalize (⟨s.device.currentCore,valid.current⟩ : Fin c.nCores) = i at here
  rw [mem_next here,log_step,latest_append,same,effects_current valid here]
  split
  case isTrue => rw [List.flatMap_singleton]
  case isFalse unserved =>
    have taking := takes_served (x := x) (i := i) valid
    have quiet : (s.device.connectors i).writeEnableReg = false := by
      simp only [unserved,takes,here,decide_true,Bool.true_and,Bool.or_eq_false_iff] at taking
      exact taking.1
    rw [writesTo_other word (by simp [command,m,quiet])]
    rfl

theorem sequential_step (valid : Valid s) :
    Sequential (writesTo word) Gives s.origin (s.ports.history ++ effects s.device x) := by
  rw [effects_current valid (i := ⟨s.device.currentCore,valid.current⟩) rfl]
  split
  case isTrue =>
    refine Each.snoc valid.sequential fun read b => ?_
    exact (data_next rfl read b).trans (valid.memory (word _,b))
  case isFalse =>
    rw [List.append_nil]
    exact valid.sequential
end Service

def Config.PowerOfTwo (c : Config) : Prop := ∃ w, c.nCores = 2^(w+1)

attribute [local simp] SspmAegean.next

section Schedule
variable {s : State c} {x : Cycle c}

inductive Turn (d : SspmAegean c) (stray : Stray) (later : SspmAegean c) : Prop where
  | begins : d.state = .sIdle → d.begins stray = true → later.currentCore = d.currentCore → later.nextCore = d.nextCore →
      later.state = .sSync → later.syncCounter = c.extendedSlotSize-1 → Turn d stray later
  | passes : d.state = .sIdle → d.begins stray = false → later.currentCore = d.nextCore →
      later.nextCore = (d.nextCore+1) % c.nCores → later.state = .sIdle →
      later.syncUsed = (if c.singleExtendedSlot ∧ d.currentCore = d.syncCore then false else d.syncUsed) →
      later.syncCore = d.syncCore → Turn d stray later
  | stays : d.state = .sSync → d.syncCounter ≠ 0 → later.currentCore = d.currentCore → later.nextCore = d.nextCore →
      later.state = .sSync → later.syncCounter = d.syncCounter-1 → Turn d stray later
  | ends : d.state = .sSync → d.syncCounter = 0 → later.currentCore = d.nextCore →
      later.nextCore = (d.nextCore+1) % c.nCores → later.state = .sIdle →
      later.syncUsed = (if c.singleExtendedSlot then true else d.syncUsed) →
      later.syncCore = (if c.singleExtendedSlot then d.currentCore else d.syncCore) → Turn d stray later

theorem turn_step (power : c.PowerOfTwo) (valid : Valid s) : Turn s.device x.stray (s.moved x) := by
  obtain ⟨w,size⟩ := power
  have wraps : 2^log2Up c.nCores = c.nCores := by rw [size,log2Up_two_pow]
  have inside : ¬c.nCores-1 < s.device.nextCore := by
    have below := Nat.mod_lt (s.device.currentCore+1) (show 0 < c.nCores by have := c.several; omega)
    rw [valid.following]
    omega
  cases state : s.device.state with
  | sIdle =>
    cases asks : s.device.begins x.stray with
    | true =>
      exact .begins state asks (by simp [state,asks]) (by simp [state,asks,inside])
        (by simp [state,asks]) (by simp [state,asks])
    | false =>
      exact .passes state asks (by simp [state,asks])
        (by simp [state,asks,inside,wraps]) (by simp [state,asks])
        (by simp [state]) (by simp [state])
  | sSync =>
    by_cases last : s.device.syncCounter = 0
    · exact .ends state last (by simp [state,last]) (by simp [state,last,wraps])
        (by simp [state,last]) (by simp [state]) (by simp [state])
    · exact .stays state last (by simp [state,last]) (by simp [state,last])
        (by simp [state,last]) (by simp [state,last])

theorem core_changes (current : k < c.nCores) : (k+1) % c.nCores ≠ k := by
  have several := c.several
  rcases Nat.lt_or_ge (k+1) c.nCores with more | last
  · rw [Nat.mod_eq_of_lt more]
    omega
  · rw [show k+1 = c.nCores by omega,Nat.mod_self]
    omega

theorem current_step (power : c.PowerOfTwo) (valid : Valid s) :
    (s.moved x).currentCore < c.nCores ∧
      (s.moved x).nextCore = ((s.moved x).currentCore+1) % c.nCores := by
  have below := Nat.mod_lt (s.device.currentCore+1) (show 0 < c.nCores by have := c.several; omega)
  cases turn_step (x := x) power valid with
  | begins _ _ current next _ _ | stays _ _ current next _ _ =>
    rw [current,next]
    exact ⟨valid.current,valid.following⟩
  | passes _ _ current next _ _ _ | ends _ _ current next _ _ _ =>
    rw [current,next]
    exact ⟨valid.following ▸ below,rfl⟩

theorem entered_step (power : c.PowerOfTwo) (valid : Valid s) (i : Fin c.nCores)
    (state : (s.moved x).state = .sIdle) (here : (s.moved x).currentCore = i) :
    ((s.moved x).connectors i).prevConnectorEnable1 = false := by
  have left : s.device.currentCore ≠ i := by
    cases turn_step (x := x) power valid with
    | begins _ _ _ _ other _ | stays _ _ _ _ other _ =>
      rw [other] at state
      cases state
    | passes _ _ current _ _ _ _ | ends _ _ current _ _ _ _ =>
      intro same
      rw [current,valid.following] at here
      exact core_changes valid.current (here.trans same.symm)
  change s.device.enable x.stray i = false
  simp [SspmAegean.enable,left]

theorem holder_step (valid : Valid s) : (s.moved x).syncCore < c.nCores := by
  have current := valid.current
  have holder := valid.holder
  cases state : s.device.state with
  | sIdle => simpa [state] using holder
  | sSync => cases single : c.singleExtendedSlot <;> simpa [state,single]

-- What a waiting connector holds, under the protocol of the cores.
theorem quiet_step (valid : Valid s) (admitted : ((system c).restrict Reads).admits s x) (i : Fin c.nCores) :
    (((s.moved x).connectors i).state = .sIdle →
      ((s.moved x).connectors i).writeEnableReg = false ∧
        ((s.moved x).connectors i).syncReqReg = false) ∧
    (((s.moved x).connectors i).syncReqReg = true →
      ((s.moved x).connectors i).writeEnableReg = false) := by
  have ready (issuing : (x.m i).cmd ≠ .idle) := valid.orderly.ready (admitted.1 i issuing)
  have reads := admitted.2 i
  have reading := valid.reading i
  have quiet := valid.quiet i
  rw [next_connector]
  cases state : (s.device.connectors i).state with
  | sIdle =>
    have unasked := (quiet state).2
    cases cmd : (x.m i).cmd with
    | idle => simp [next,state,cmd,syncs,unasked]
    | rd => simp [next,state,cmd]
    | wr => simp [next,state,reads cmd,unasked]
  | sWaiting =>
    have silent : (x.m i).cmd = .idle := by
      by_contra issuing
      have rested := ready issuing
      simp [waiting,state] at rested
    have unasked : syncs (x.m i) = false := by simp [syncs,silent]
    cases enabled : s.device.enable x.stray i with
    | false =>
      simp only [next,serves,plain,synchronised,state,unasked]
      simpa using reading
    | true =>
      cases asks : (s.device.connectors i).syncReqReg with
      | false =>
        simp [next,serves,plain,asks,silent,
          unasked]
      | true =>
        have unwritten := reading asks
        cases prev : (s.device.connectors i).prevConnectorEnable <;>
          simp [next,serves,plain,state,asks,silent,unwritten]

theorem valid_start (begun : (system c).start s) : Valid s := by
  obtain ⟨next,current,state,-,used,holder,reset,ports,origin⟩ := begun
  have several := c.several
  have rested : waiting s.device = fun _ => none := funext fun i => if_pos (reset i).2.2.1
  have silent : answering s.device = fun _ => none := funext fun i => by simp [answering,(reset i).1]
  refine ⟨?_,?_,?_,fun _ => used,fun i _ => ⟨(reset i).2.1,(reset i).2.2.2⟩,fun i _ => (reset i).2.1,?_,?_,fun cell => ?_,?_⟩
  · omega
  · rw [next,current,Nat.mod_eq_of_lt (by omega)]
  · omega
  · intro i _ _ pending
    rw [(reset i).2.2.1] at pending
    cases pending
  · rw [ports,rested,silent]
    exact .empty
  · rw [log,ports]
    exact (origin cell).symm
  · rw [ports]
    exact .nil

theorem valid_step (power : c.PowerOfTwo) (valid : Valid s) (admitted : ((system c).restrict Reads).admits s x) :
    Valid ((system c).next s x) where
  current := (current_step power valid).1
  following := (current_step power valid).2
  holder := holder_step valid
  unused plural := by
    have unused := valid.unused plural
    cases state : s.device.state <;> simp [system,SspmAegean.next,state,plural,unused]
  quiet i := (quiet_step valid admitted i).1
  reading i := (quiet_step valid admitted i).2
  entered i state here _ := entered_step power valid i state here
  orderly := orderly_step valid admitted.1
  memory := memory_step valid
  sequential := sequential_step valid

theorem reached_valid (power : c.PowerOfTwo) (path : Reached ((system c).restrict Reads) s) : Valid s :=
  path.invariant (fun _ => valid_start) (fun _ _ => valid_step power)
end Schedule
end Patmos.Sspm
