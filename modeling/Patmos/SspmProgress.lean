import Patmos.CircularPriority
import Patmos.SspmService
namespace Patmos.Sspm
open Transition Register PortHistory SharedMemory CircularPriority

variable {c : Config}

-- The steps to b after a has been left.
def lap (n a b : Nat) : Nat := distance n ((a+1) % n) b+1

-- One core has its slot, at most one extension and one cycle more.
def Config.slot (c : Config) : Nat := c.extendedSlotSize+2
def Config.round (c : Config) : Nat := c.nCores*c.slot

theorem round_pos (c : Config) : (c.nCores-1)*c.slot+c.slot = c.round := by
  have several := c.several
  rw [Config.round,← Nat.succ_mul,Nat.succ_eq_add_one,Nat.sub_add_cancel (by omega)]

-- While the single extension is used, it must first come round to the core that used it. After that the next core to
-- ask gets it, which is nearer to core i.
def rank (d : SspmAegean c) (i : Fin c.nCores) : Nat :=
  match d.state with
  | .sIdle =>
    if d.syncUsed then lap c.nCores d.syncCore i*(c.round+1)+distance c.nCores d.currentCore d.syncCore*c.slot+c.extendedSlotSize+1
    else distance c.nCores d.currentCore i*(c.round+1)+c.round+c.extendedSlotSize+1
  | .sSync =>
    if d.currentCore = i ∧ (d.connectors i).prevConnectorEnable = false then 0
    else lap c.nCores d.currentCore i*(c.round+1)+(c.nCores-1)*c.slot+c.extendedSlotSize+1+d.syncCounter+1

section Progress
variable {s : State c} {x : Cycle c} {i : Fin c.nCores}

theorem used_single (valid : Valid s) (used : s.device.syncUsed = true) : c.singleExtendedSlot = true := by
  cases single : c.singleExtendedSlot with
  | true => rfl
  | false => exact absurd used (by rw [valid.unused single]; decide)

theorem begins_used (valid : Valid s) (asks : s.device.begins x.stray = true) : s.device.syncUsed = false := by
  cases used : s.device.syncUsed with
  | false => rfl
  | true => simp [SspmAegean.begins,used,used_single valid used] at asks

-- A core whose request is not taken up in its slot has to ask for an extension.
theorem begins_current (here : s.device.currentCore = i) (free : s.device.syncUsed = false)
    (pending : (s.device.connectors i).state = .sWaiting) (unserved : served s.device x.stray i = false) :
    s.device.begins x.stray = true := by
  have selected := selected_current here x.stray
  cases asks : (s.device.connectors i).syncReqReg with
  | true => simp [SspmAegean.begins,selected,asks,free]
  | false => exact absurd (served_plain here pending asks) (by rw [unserved]; decide)

theorem served_entered (state : s.device.state = .sSync) (here : s.device.currentCore = i)
    (pending : (s.device.connectors i).state = .sWaiting) (entered : (s.device.connectors i).prevConnectorEnable = false) :
    served s.device x.stray i = true := by
  have enabled : s.device.enable x.stray i = true := by simp [SspmAegean.enable,here,state]
  cases asks : (s.device.connectors i).syncReqReg <;>
    simp [served,pending,SspmConnector.serves,SspmConnector.plain,SspmConnector.synchronised,enabled,entered]

theorem rank_step (power : c.PowerOfTwo) (valid : Valid s) (pending : (s.device.connectors i).state = .sWaiting)
    (unserved : served s.device x.stray i = false) : rank (s.moved x) i < rank s.device i := by
  have current := valid.current
  have holder := valid.holder
  have inside := i.isLt
  have rounds := round_pos c
  have slot : c.slot = c.extendedSlotSize+2 := rfl
  have missed (state : s.device.state = .sSync) :
      ¬(s.device.currentCore = i ∧ (s.device.connectors i).prevConnectorEnable = false) := fun both => by
    rw [served_entered state both.1 pending both.2] at unserved
    cases unserved
  cases turn_step (x := x) power valid with
  | begins state asks same next later counter =>
    have free := begins_used valid asks
    simp only [rank,state,later,free,same,Bool.false_eq_true,if_false]
    by_cases here : s.device.currentCore = i
    · have entered : ((s.moved x).connectors i).prevConnectorEnable = false :=
        valid.entered i state here pending
      rw [if_pos ⟨here,entered⟩]
      omega
    · rw [if_neg fun both => here both.1,lap,distance_step current inside here]
      omega
  | passes state idle moved next later used holds =>
    simp only [rank,state,later,moved,holds,valid.following]
    cases busy : s.device.syncUsed with
    | false =>
      have other : s.device.currentCore ≠ i := fun here => by
        rw [begins_current here busy pending unserved] at idle
        cases idle
      have still : (s.moved x).syncUsed = false := by rw [used,busy,ite_self]
      have nearer := distance_step current inside other
      simp only [still,Bool.false_eq_true,if_false]
      rw [← nearer,Nat.succ_mul]
      omega
    | true =>
      simp only [if_true]
      by_cases here : s.device.currentCore = s.device.syncCore
      · have released : (s.moved x).syncUsed = false := by rw [used,if_pos ⟨used_single valid busy,here⟩]
        simp only [released,Bool.false_eq_true,if_false]
        rw [lap,← here,Nat.succ_mul]
        omega
      · have still : (s.moved x).syncUsed = true := by rw [used,if_neg fun both => here both.2,busy]
        have nearer := distance_step current holder here
        simp only [still,if_true]
        rw [← nearer,Nat.succ_mul]
        omega
  | stays state more same next later counter =>
    have missed := missed state
    simp only [rank,state,later,same]
    split <;> omega
  | ends state last moved next later used holds =>
    have missed := missed state
    simp only [rank,state,later,moved,holds,valid.following]
    rw [if_neg missed]
    cases single : c.singleExtendedSlot with
    | true =>
      have taken : (s.moved x).syncUsed = true := by rw [used,single,if_pos rfl]
      have around := distance_round current
      simp only [taken,if_true]
      rw [show distance c.nCores ((s.device.currentCore+1) % c.nCores) s.device.currentCore = c.nCores-1 by omega]
      omega
    | false =>
      have free : (s.moved x).syncUsed = false := by
        rw [used,single,if_neg Bool.false_ne_true,valid.unused single]
      simp only [free,Bool.false_eq_true,if_false]
      rw [lap,Nat.succ_mul]
      omega

theorem answer_step (power : c.PowerOfTwo) (i : Fin c.nCores) (path : Reached ((system c).restrict Reads) s)
    (admitted : ((system c).restrict Reads).admits s x) (pending : (waiting s.device i).isSome = true) :
    (answering ((system c).next s x).device i).isSome = true ∨
    (waiting ((system c).next s x).device i).isSome = true ∧ rank ((system c).next s x).device i < rank s.device i := by
  have valid := reached_valid power path
  have state : (s.device.connectors i).state = .sWaiting := by
    cases state : (s.device.connectors i).state with
    | sIdle => simp [waiting,state] at pending
    | sWaiting => rfl
  cases serving : served s.device x.stray i with
  | true =>
    left
    rw [show answering ((system c).next s x).device i = _ from answering_next (d := s.device) (x := x) i,if_pos serving]
    rfl
  | false =>
    right
    have kept := waiting_next (d := s.device) fun issuing => valid.orderly.ready (admitted.1 i issuing)
    rw [serving] at kept
    refine ⟨?_,rank_step power valid state serving⟩
    cases still : waiting ((system c).next s x).device i with
    | none =>
      rw [show waiting (s.moved x) i = none from still] at kept
      obtain ⟨held,pending⟩ := Option.isSome_iff_exists.mp pending
      simp [pending] at kept
    | some _ => rfl

theorem effects_port (a : Access (Fin c.nCores) (OcpCoreMasterSignals 4) (Word 4)) (taken : a ∈ effects s.device x) :
    a.port.val = s.device.currentCore := by
  obtain ⟨i,-,taken⟩ := List.mem_flatMap.mp taken
  split at taken
  case isTrue taking =>
    cases List.mem_singleton.mp taken
    simp only [takes,Bool.and_eq_true,decide_eq_true_eq] at taking
    exact taking.1.symm
  case isFalse => cases taken

theorem sync_keeps (state : s.device.state = .sSync) (later : ((system c).next s x).device.state = .sSync) :
    ((system c).next s x).device.currentCore = s.device.currentCore := by
  by_cases last : s.device.syncCounter = 0 <;> simp [system,SspmAegean.next,state,last] at later ⊢

theorem secluded (s : State c) : Secluded s := by
  intro inputs admitted inside
  induction inputs generalizing s with
  | nil => exact ⟨[],(List.append_nil _).symm,fun _ none => by cases none⟩
  | cons x rest ih =>
    have here : s.device.state = .sSync := inside 0 (Nat.succ_pos _)
    have further (k) (below : k < rest.length) := inside (k+1) (Nat.succ_lt_succ below)
    obtain ⟨added,grown,own⟩ := ih ((system c).next s x) admitted.2 further
    refine ⟨effects s.device x ++ added,?_,fun a taken => ?_⟩
    · rw [← List.append_assoc]
      exact grown
    · rcases List.mem_append.mp taken with now | next
      · exact effects_port a now
      · have kept : rest ≠ [] := by
          rintro rfl
          have same : s.ports.history ++ effects s.device x = s.ports.history ++ effects s.device x ++ added := grown
          rw [List.self_eq_append_right] at same
          rw [same] at next
          cases next
        rw [own a next]
        exact sync_keeps here (further 0 (List.length_pos_of_ne_nil kept))

theorem valid_scheduled (valid : Valid s) : Scheduled s where
  current := valid.current
  alone _ _ _ left right := Fin.ext ((enable_current left).symm.trans (enable_current right))
  orderly := valid.orderly
  sequential := valid.sequential
  secluded _ := secluded s
end Progress

-- The slots serve every core when nextCore wraps by its width and the synchronisation address is only read.
theorem sspm_scheduled (power : c.PowerOfTwo) {s : State c} (path : Reached ((system c).restrict Reads) s) :
    Scheduled s ∧ Answered ((system c).restrict Reads) s := by
  refine ⟨valid_scheduled (reached_valid power path),fun inputs follows i pending => ?_⟩
  obtain ⟨t,-,answered⟩ := Reached.answered (fun s => (answering s.device i).isSome = true)
    (fun s => rank s.device i) (fun _ _ => answer_step power i) path follows pending
  exact ⟨t,answered⟩

def connected : SspmConnector := ⟨.null,false,0,fun _ => 0,fun _ => false,false,false,.sIdle,false⟩

def initial (c : Config) : State c where
  device := ⟨1,0,.sIdle,0,false,0,fun _ => connected,⟨fun _ _ => 0,0⟩⟩
  ports := .empty
  origin _ := 0

theorem initial_starts (c : Config) : (system c).start (initial c) :=
  ⟨rfl,rfl,rfl,rfl,rfl,rfl,fun _ => ⟨rfl,rfl,rfl,rfl⟩,rfl,fun _ => rfl⟩

instance (s : State c) (x : Cycle c) : Decidable ((system c).admits s x) :=
  inferInstanceAs (Decidable (∀ i, (x.m i).cmd ≠ .idle → s.ports.Ready (answering s.device) i))

instance (s : State c) (x : Cycle c) : Decidable (Reads s x) :=
  inferInstanceAs (Decidable (∀ i, (x.m i).cmd = .wr → SspmConnector.syncs (x.m i) = false))

def unconnected : Stray := ⟨⟨fun _ => 0,0,fun _ => false,false⟩,false⟩

def issue (i : Nat) (cmd : OcpCmd) (addr : Nat) (value : BitVec 8) : Cycle c :=
  ⟨fun j => if j.val = i then ⟨cmd,addr,fun _ => value,fun _ => true⟩ else ⟨.idle,0,fun _ => 0,fun _ => false⟩,unconnected⟩

def pause : Cycle c := issue 0 .idle 0 0

def four : Config := ⟨4,5,false,by decide,by decide⟩

-- Core 0 reads the synchronisation address, and increments a word in its extended slot, while core 1 waits with a write
-- of that word.
def increment : List (Cycle four) :=
  [issue 0 .rd 0xFFFC 0,pause,pause,pause,issue 1 .wr 8 7,issue 0 .rd 8 0,pause,issue 0 .wr 8 1,pause,pause,pause,pause]

theorem sspm_scheduled_increment :
    let s := (system four).run (initial four) increment
    s.ports.history.map (fun a => (a.port.val,a.command.cmd)) = [(0,.rd),(0,.rd),(0,.wr),(1,.wr)] ∧
      Scheduled s ∧ Answered ((system four).restrict Reads) s := by
  have path : Reached ((system four).restrict Reads) (((system four).restrict Reads).run (initial four) increment) :=
    (Reached.start (m := (system four).restrict Reads) (initial_starts four)).run increment (by decide +kernel)
  exact ⟨by decide +kernel,sspm_scheduled ⟨1,rfl⟩ path⟩

theorem three_several : 2 ≤ 3 := Nat.le_succ 2

def three : Config := ⟨3,1,false,three_several,Nat.zero_lt_one⟩

-- In its extended slot core 0 writes the synchronisation address, which is the last word of the memory. Core 1 writes
-- the same word, and core 0 once more.
def rewrite : List (Cycle four) :=
  [issue 0 .rd 0xFFFC 0,pause,pause,pause,pause,issue 0 .wr 0xFFFC 1,issue 1 .wr 0x3FFC 2,pause,pause,pause,pause,pause,pause,pause]

theorem spare_slot_repeated_write :
    (∃ s, Reached (system three) s ∧ ¬Scheduled s) ∧
    ∃ s, Reached (system four) s ∧ ¬Scheduled s ∧
      (s.ports.commands ⟨0,by decide⟩).length = 2 ∧
      s.ports.history.map (fun a => (a.port.val,a.command.cmd)) =
        [(0,.rd),(0,.wr),(0,.wr),(0,.wr),(0,.wr),(1,.wr),(0,.wr)] ∧
      s.device.mem.syncMem 4095 ⟨0,by decide⟩ = 1 := by
  have core : ¬((system three).run (initial three) [pause,pause,pause]).device.currentCore < three.nCores := by decide +kernel
  have repeated : ¬(((system four).run (initial four) rewrite).ports.commands ⟨0,by decide⟩).length =
      ((ofPort ((system four).run (initial four) rewrite).ports.history ⟨0,by decide⟩).map Access.command ++
        (waiting ((system four).run (initial four) rewrite).device ⟨0,by decide⟩).toList).length := by decide +kernel
  refine ⟨⟨_,(Reached.start (initial_starts three)).run [pause,pause,pause] (by decide +kernel),fun s => core s.current⟩,
    _,(Reached.start (initial_starts four)).run rewrite (by decide +kernel),fun s => ?_,
    by decide +kernel,by decide +kernel,by decide +kernel⟩
  exact repeated (congrArg List.length (s.orderly.effected _))
end Patmos.Sspm
