import Patmos.TransitionSystem
import Patmos.RegisterWidth
import Patmos.OcpSignals
import Patmos.CircularPriority
namespace Patmos
open Transition Register

structure HardlockIO where
  sel : Nat
  op : Bool
  en : Bool

-- The number of cores is cores+1.
structure Hardlock (cores lckCnt : Nat) where
  queueReg : Fin lckCnt → Fin (cores+1) → Bool
  curReg : Fin lckCnt → Fin (cores+1)

namespace Hardlock
def blck (h : Hardlock cores lckCnt) (i : Fin (cores+1)) : Bool := ∃ l, h.queueReg l i = true ∧ h.curReg l ≠ i

def next (h : Hardlock cores lckCnt) (io : Fin (cores+1) → HardlockIO) : Hardlock cores lckCnt where
  queueReg l i := if (io i).sel = l.val ∧ (io i).en = true then (io i).op else h.queueReg l i
  curReg l := CircularPriority.next (h.curReg l) (h.queueReg l)
end Hardlock

structure HardlockM where
  cmd : OcpCmd
  data : Nat

structure HardlockOCPWrapper (cores lckCnt : Nat) where
  hardlock : Hardlock cores lckCnt
  reqReg : Fin (cores+1) → Bool

namespace HardlockOCPWrapper
def port (lckCnt : Nat) (m : HardlockM) : HardlockIO where
  op := m.data % 2 = 1
  sel := m.data/2 % 2^log2Up lckCnt
  en := m.cmd = .wr

def answered (w : HardlockOCPWrapper cores lckCnt) (i : Fin (cores+1)) : Bool := w.reqReg i && !w.hardlock.blck i

def resp (w : HardlockOCPWrapper cores lckCnt) (i : Fin (cores+1)) : OcpResp := if w.answered i then .dva else .null

def next (w : HardlockOCPWrapper cores lckCnt) (m : Fin (cores+1) → HardlockM) : HardlockOCPWrapper cores lckCnt where
  hardlock := w.hardlock.next fun i => port lckCnt (m i)
  reqReg i := if (m i).cmd ≠ .idle then true else if w.answered i then false else w.reqReg i
end HardlockOCPWrapper

namespace HardwareLock
open HardlockOCPWrapper

inductive Request (lckCnt : Nat) where
  | lock (l : Fin lckCnt)
  | other
  deriving DecidableEq

-- `request` is what a core waits for. `holds` are the locks whose request was answered and that were not unlocked
-- since. `granted i k` counts how often core k was granted the lock core i waits for, from the request of i on.
structure State (cores lckCnt : Nat) where
  device : HardlockOCPWrapper cores lckCnt
  request : Fin (cores+1) → Option (Request lckCnt)
  holds : Fin lckCnt → Fin (cores+1) → Bool
  granted : Fin (cores+1) → Fin (cores+1) → Nat

abbrev Cycle (cores : Nat) := Fin (cores+1) → HardlockM

section Events
variable {cores lckCnt : Nat}

def Locks (m : HardlockM) (l : Fin lckCnt) : Prop := m.cmd = .wr ∧ m.data % 2 = 1 ∧ m.data/2 = l.val
def Unlocks (m : HardlockM) (l : Fin lckCnt) : Prop := m.cmd = .wr ∧ m.data % 2 = 0 ∧ m.data/2 = l.val

instance (m : HardlockM) (l : Fin lckCnt) : Decidable (Locks m l) := inferInstanceAs (Decidable (_ ∧ _ ∧ _))
instance (m : HardlockM) (l : Fin lckCnt) : Decidable (Unlocks m l) := inferInstanceAs (Decidable (_ ∧ _ ∧ _))

def requested (lckCnt : Nat) (m : HardlockM) : Request lckCnt :=
  if inside : m.data/2 < lckCnt then if m.cmd = .wr ∧ m.data % 2 = 1 then .lock ⟨m.data/2,inside⟩ else .other else .other

section
variable (s : State cores lckCnt) (l : Fin lckCnt) (i : Fin (cores+1))

-- The core has received DVA for its request, in this cycle at the latest.
def Owns : Prop := s.holds l i = true ∨ s.device.resp i = .dva ∧ s.request i = some (.lock l)

def Granted : Prop := s.device.resp i = .dva ∧ s.request i = some (.lock l) ∧ s.holds l i = false

instance (s : State cores lckCnt) (l : Fin lckCnt) (i : Fin (cores+1)) : Decidable (Owns s l i) :=
  inferInstanceAs (Decidable (_ ∨ _ ∧ _))
instance (s : State cores lckCnt) (l : Fin lckCnt) (i : Fin (cores+1)) : Decidable (Granted s l i) :=
  inferInstanceAs (Decidable (_ ∧ _ ∧ _))

def grants (k : Fin (cores+1)) : Nat := if Granted s l k then 1 else 0

def requestNext (m : Cycle cores) (i : Fin (cores+1)) : Option (Request lckCnt) :=
  if (m i).cmd ≠ .idle then some (requested lckCnt (m i)) else if s.device.resp i = .dva then none else s.request i
end

def grantedNext (s : State cores lckCnt) (m : Cycle cores) (i k : Fin (cores+1)) : Nat :=
  match requestNext s m i with
  | some (.lock l) => (if (m i).cmd ≠ .idle then 0 else s.granted i k)+grants s l k
  | _ => 0
end Events

-- Locks that exist. Nothing below needs that a core waits for its answer or unlocks only what it holds.
def Conforms (lckCnt : Nat) (m : HardlockM) : Prop := m.cmd = .wr → m.data/2 < lckCnt

instance (lckCnt : Nat) (m : HardlockM) : Decidable (Conforms lckCnt m) := inferInstanceAs (Decidable (_ → _))

def system (cores lckCnt : Nat) : System (State cores lckCnt) (Cycle cores) where
  start s := s.device = ⟨⟨fun _ _ => false,fun _ => ⟨0,Nat.succ_pos _⟩⟩,fun _ => false⟩ ∧
    s.request = (fun _ => none) ∧ s.holds = fun _ _ => false
  admits _ m := ∀ i, Conforms lckCnt (m i)
  next s m := {
    device := s.device.next m
    request := requestNext s m
    holds := fun l i => Owns s l i ∧ ¬Unlocks (m i) l
    granted := grantedNext s m }

instance (s : State cores lckCnt) (m : Cycle cores) : Decidable ((system cores lckCnt).admits s m) :=
  inferInstanceAs (Decidable (∀ i, Conforms lckCnt (m i)))

section Queue
variable {cores lckCnt : Nat} {h : Hardlock cores lckCnt} {m : Cycle cores} {l : Fin lckCnt} {i : Fin (cores+1)}

theorem sel_exact (inside : data/2 < lckCnt) : data/2 % 2^log2Up lckCnt = data/2 :=
  Nat.mod_eq_of_lt (inside.trans_le (le_two_pow_log2Up lckCnt))

theorem port_sel (lock : data/2 = l.val) : (port lckCnt ⟨cmd,data⟩).sel = l.val :=
  (sel_exact (lock ▸ l.isLt : data/2 < lckCnt)).trans lock

theorem queue_set (locks : Locks (m i) l) : (h.next fun i => port lckCnt (m i)).queueReg l i = true := by
  obtain ⟨write,odd,lock⟩ := locks
  exact (if_pos ⟨port_sel lock,decide_eq_true write⟩).trans (decide_eq_true odd)

theorem queue_cleared (unlocks : Unlocks (m i) l) : (h.next fun i => port lckCnt (m i)).queueReg l i = false := by
  obtain ⟨write,even,lock⟩ := unlocks
  exact (if_pos ⟨port_sel lock,decide_eq_true write⟩).trans (decide_eq_false (by omega))

theorem queue_kept (inside : Conforms lckCnt (m i)) (keeps : ¬Unlocks (m i) l)
    (queued : h.queueReg l i = true) : (h.next fun i => port lckCnt (m i)).queueReg l i = true := by
  by_cases locks : Locks (m i) l
  · exact queue_set locks
  · have elsewhere : ¬((port lckCnt (m i)).sel = l.val ∧ (port lckCnt (m i)).en = true) := by
      rintro ⟨sel,en⟩
      have write : (m i).cmd = .wr := of_decide_eq_true en
      have lock : (m i).data/2 = l.val := (sel_exact (inside write)).symm.trans sel
      rcases Nat.mod_two_eq_zero_or_one (m i).data with even | odd
      · exact keeps ⟨write,even,lock⟩
      · exact locks ⟨write,odd,lock⟩
    rw [show (h.next fun i => port lckCnt (m i)).queueReg l i = h.queueReg l i from if_neg elsewhere]
    exact queued

theorem cur_stays (queued : h.queueReg l i = true) (current : h.curReg l = i) (io : Fin (cores+1) → HardlockIO) :
    (h.next io).curReg l = i := by
  subst current
  exact CircularPriority.next_stays queued
end Queue

section Invariant
variable {cores lckCnt : Nat} {s : State cores lckCnt} {m : Cycle cores}

-- Core k was granted the lock while i waits: it is still the current core and has to give up its place before it can
-- ask again, or the turn has left it and has not come to i yet.
def Overtook (s : State cores lckCnt) (l : Fin lckCnt) (i k : Fin (cores+1)) : Prop :=
  s.device.hardlock.curReg l = k ∧ (s.holds l k = true ∨ s.device.hardlock.queueReg l k = false) ∨
    CircularPriority.Ahead k (s.device.hardlock.curReg l) i

structure Valid (s : State cores lckCnt) : Prop where
  outstanding : ∀ i, s.device.reqReg i = (s.request i).isSome
  queued : ∀ i l, s.request i = some (.lock l) → s.device.hardlock.queueReg l i = true
  held : ∀ l i, s.holds l i = true → s.device.hardlock.queueReg l i = true ∧ s.device.hardlock.curReg l = i
  overtaken : ∀ i k l, s.request i = some (.lock l) → k ≠ i →
    s.granted i k = 0 ∨ s.granted i k = 1 ∧ Overtook s l i k

theorem resp_dva {w : HardlockOCPWrapper cores lckCnt} {i : Fin (cores+1)} : w.resp i = .dva ↔ w.answered i = true := by
  unfold resp
  split <;> simp [*]

theorem resp_current (dva : s.device.resp i = .dva) (queued : s.device.hardlock.queueReg l i = true) :
    s.device.hardlock.curReg l = i := by
  have free := resp_dva.mp dva
  simp only [answered,Hardlock.blck,Bool.and_eq_true,Bool.not_eq_true',decide_eq_false_iff_not] at free
  exact Classical.byContradiction fun other => free.2 ⟨l,queued,other⟩

theorem owns_current (valid : Valid s) (owns : Owns s l i) :
    s.device.hardlock.queueReg l i = true ∧ s.device.hardlock.curReg l = i := by
  rcases owns with holds | ⟨dva,request⟩
  · exact valid.held l i holds
  · have queued := valid.queued i l request
    exact ⟨queued,resp_current dva queued⟩

theorem owns_unique (valid : Valid s) (one : Owns s l i) (two : Owns s l j) : i = j :=
  (owns_current valid one).2.symm.trans (owns_current valid two).2

theorem owned_next (valid : Valid s) (owns : Owns s l k) :
    (s.device.next m).hardlock.curReg l = k ∧
      (((system cores lckCnt).next s m).holds l k = true ∨ (s.device.next m).hardlock.queueReg l k = false) := by
  obtain ⟨queued,current⟩ := owns_current valid owns
  refine ⟨cur_stays queued current _,?_⟩
  by_cases unlocks : Unlocks (m k) l
  · exact .inr (queue_cleared unlocks)
  · exact .inl (decide_eq_true ⟨owns,unlocks⟩)

theorem granted_once (valid : Valid s) (request : s.request i = some (.lock l)) (other : k ≠ i)
    (granted : Granted s l k) : s.granted i k = 0 := by
  obtain ⟨dva,asked,fresh⟩ := granted
  rcases valid.overtaken i k l request other with none | ⟨-,overtook⟩
  · exact none
  · have queued := valid.queued k l asked
    rcases overtook with ⟨-,holds | left⟩ | ahead
    · exact absurd (holds.symm.trans fresh) (by decide)
    · exact absurd (queued.symm.trans left) (by decide)
    · exact absurd (resp_current dva queued) ahead.ne

theorem overtook_next (valid : Valid s) (request : s.request i = some (.lock l)) (overtook : Overtook s l i k) :
    Overtook ((system cores lckCnt).next s m) l i k := by
  have waiting := valid.queued i l request
  rcases overtook with ⟨current,holds | left⟩ | ahead
  · exact .inl (owned_next valid (.inl holds))
  · refine .inr ?_
    have leaves := CircularPriority.ahead_leaves waiting left
    rwa [← current] at leaves ⊢
  · exact .inr (ahead.next waiting)

theorem request_lock (asked : requestNext s m i = some (.lock l)) :
    (m i).cmd ≠ .idle ∧ Locks (m i) l ∨ (m i).cmd = .idle ∧ s.device.resp i ≠ .dva ∧ s.request i = some (.lock l) := by
  unfold requestNext at asked
  split at asked
  case isTrue command =>
    refine .inl ⟨command,?_⟩
    unfold requested at asked
    split at asked
    · split at asked
      case isTrue lock =>
        cases asked
        exact ⟨lock.1,lock.2,rfl⟩
      case isFalse => cases asked
    · cases asked
  case isFalse silent =>
    split at asked
    · cases asked
    · exact .inr ⟨Classical.byContradiction silent,by assumption,asked⟩

theorem valid_start (begun : (system cores lckCnt).start s) : Valid s := by
  obtain ⟨device,request,holds⟩ := begun
  refine ⟨fun i => ?_,fun i l asked => ?_,fun l i held => ?_,fun i k l asked => ?_⟩
  · rw [device,request]; rfl
  · rw [request] at asked; cases asked
  · rw [holds] at held; cases held
  · rw [request] at asked; cases asked

theorem valid_step (valid : Valid s) (admitted : (system cores lckCnt).admits s m) :
    Valid ((system cores lckCnt).next s m) := by
  refine ⟨fun i => ?_,fun i l asked => ?_,fun l i held => ?_,fun i k l asked other => ?_⟩
  · change (if (m i).cmd ≠ .idle then true else if s.device.answered i then false else s.device.reqReg i) =
      (requestNext s m i).isSome
    unfold requestNext
    by_cases command : (m i).cmd = .idle
    · by_cases dva : s.device.resp i = .dva
      · simp [command,dva,resp_dva.mp dva]
      · simp [command,dva,mt resp_dva.mpr dva,valid.outstanding i]
    · simp [command]
  · rcases request_lock asked with ⟨-,locks⟩ | ⟨silent,-,request⟩
    · exact queue_set locks
    · have keeps : ¬Unlocks (m i) l := by rintro ⟨write,-⟩; rw [silent] at write; cases write
      exact queue_kept (admitted i) keeps (valid.queued i l request)
  · obtain ⟨owns,keeps⟩ := of_decide_eq_true held
    obtain ⟨queued,current⟩ := owns_current valid owns
    exact ⟨queue_kept (admitted i) keeps queued,cur_stays queued current _⟩
  · have count : grantedNext s m i k = (if (m i).cmd ≠ .idle then 0 else s.granted i k)+grants s l k := by
      rw [grantedNext,show requestNext s m i = some (.lock l) from asked]
    change grantedNext s m i k = 0 ∨ grantedNext s m i k = 1 ∧ _
    rw [count]
    by_cases granted : Granted s l k
    · have before : (if (m i).cmd ≠ .idle then 0 else s.granted i k) = 0 := by
        rcases request_lock asked with ⟨command,-⟩ | ⟨silent,-,request⟩
        · exact if_pos command
        · rw [if_neg (not_not.mpr silent),granted_once valid request other granted]
      rw [before,grants,if_pos granted]
      exact .inr ⟨rfl,.inl (owned_next valid (.inr ⟨granted.1,granted.2.1⟩))⟩
    · rw [grants,if_neg granted]
      rcases request_lock asked with ⟨command,-⟩ | ⟨silent,-,request⟩
      · exact .inl (if_pos command)
      · rw [if_neg (not_not.mpr silent)]
        rcases valid.overtaken i k l request other with none | ⟨one,overtook⟩
        · exact .inl none
        · exact .inr ⟨one,overtook_next valid request overtook⟩

theorem reached_valid (path : Reached (system cores lckCnt) s) : Valid s :=
  path.invariant (fun _ => valid_start) (fun _ _ => valid_step)
end Invariant

theorem hardlock_exclusive_fair {s : State cores lckCnt} (path : Reached (system cores lckCnt) s) :
    (∀ l i j, Owns s l i → Owns s l j → i = j) ∧
    (∀ l i, Owns s l i → s.device.hardlock.queueReg l i = true ∧ s.device.hardlock.curReg l = i) ∧
    ∀ l i k, s.request i = some (.lock l) → k ≠ i → s.granted i k+grants s l k ≤ 1 := by
  have valid := reached_valid path
  refine ⟨fun l i j => owns_unique valid,fun l i => owns_current valid,fun l i k request other => ?_⟩
  unfold grants
  split
  case isTrue granted => rw [granted_once valid request other granted]
  case isFalse =>
    rcases valid.overtaken i k l request other with none | ⟨one,-⟩
    · rw [none]; exact Nat.zero_le 1
    · rw [one]

def initial (cores lckCnt : Nat) : State cores lckCnt :=
  ⟨⟨⟨fun _ _ => false,fun _ => ⟨0,Nat.succ_pos _⟩⟩,fun _ => false⟩,fun _ => none,fun _ _ => false,fun _ _ => 0⟩

theorem initial_reached (cores lckCnt : Nat) : Reached (system cores lckCnt) (initial cores lckCnt) :=
  .start ⟨rfl,rfl,rfl⟩

-- Both cores lock at once, core 1 is served first, unlocks and locks again.
def contention : List (Cycle 1) :=
  let drive (zero one : HardlockM) : Cycle 1 := fun i => if i.val = 0 then zero else one
  [drive ⟨.wr,1⟩ ⟨.wr,1⟩,drive ⟨.idle,0⟩ ⟨.wr,0⟩,drive ⟨.idle,0⟩ ⟨.wr,1⟩]

theorem hardlock_exclusive_fair_contended :
    let s := (system 1 1).run (initial 1 1) contention
    (Owns s 0 0 ∧ s.request 1 = some (.lock 0) ∧ s.granted 0 1 = 1) ∧
      (∀ l i j, Owns s l i → Owns s l j → i = j) ∧
      (∀ l i, Owns s l i → s.device.hardlock.queueReg l i = true ∧ s.device.hardlock.curReg l = i) ∧
      ∀ l i k, s.request i = some (.lock l) → k ≠ i → s.granted i k+grants s l k ≤ 1 :=
  ⟨by decide +kernel,
    hardlock_exclusive_fair ((initial_reached 1 1).run contention (by decide +kernel))⟩
end HardwareLock
end Patmos
