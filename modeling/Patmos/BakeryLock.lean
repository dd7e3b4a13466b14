import Patmos.TransitionSystem
import Patmos.NocDma
namespace Patmos.BakeryLock
open Transition NocDma

inductive Field where
  | entering
  | number
  deriving DecidableEq, Repr

-- LOCK_T, with the remote fields that the other core writes.
structure Lock where
  remoteEntering : Nat
  remoteNumber : Nat
  localEntering : Nat
  localNumber : Nat

def Lock.ownField (l : Lock) : Field → Nat
  | .entering => l.localEntering
  | .number => l.localNumber

def Lock.receive (l : Lock) : Field × Nat → Lock
  | (.entering,value) => {l with remoteEntering := value}
  | (.number,value) => {l with remoteNumber := value}

-- The statement of acquire_lock or release_lock that comes next. The lock is grabbed in `critical`, whose next
-- statement is the first of release_lock.
inductive Pc where
  | idle
  | sendEntering
  | awaitEntering
  | choose
  | setNumber
  | sendNumber
  | awaitNumber
  | leave
  | sendLeft
  | watch
  | look
  | compare
  | critical
  | sendRelease
  | awaitRelease
  deriving DecidableEq, Repr

structure Core where
  pc : Pc
  lock : Lock
  dma : Transfer Field Field Nat
  n : Nat
  m : Nat

namespace Core
-- noc_write waits until the previous transfer is done.
def nocWrite (c : Core) (field : Field) (after : Pc) : Core :=
  if c.dma.done then {c with pc := after,dma := .start [(field,field)]} else c

def await (c : Core) (after : Pc) : Core := if c.dma.done then {c with pc := after} else c

def behind (id remote n m : Nat) : Prop := m ≠ 0 ∧ (m < n ∨ m = n ∧ remote < id)

instance (id remote n m : Nat) : Decidable (behind id remote n m) := inferInstanceAs (Decidable (_ ∧ (_ ∨ _ ∧ _)))

def run (id remote : Nat) (c : Core) : Core :=
  match c.pc with
  | .idle => {c with pc := .sendEntering,lock := {c.lock with localEntering := 1}}
  | .sendEntering => c.nocWrite .entering .awaitEntering
  | .awaitEntering => c.await .choose
  | .choose => {c with pc := .setNumber,n := (c.lock.remoteNumber+1) % 2^32}
  | .setNumber => {c with pc := .sendNumber,lock := {c.lock with localNumber := c.n}}
  | .sendNumber => c.nocWrite .number .awaitNumber
  | .awaitNumber => c.await .leave
  | .leave => {c with pc := .sendLeft,lock := {c.lock with localEntering := 0}}
  | .sendLeft => c.nocWrite .entering .watch
  | .watch => if c.lock.remoteEntering = 1 then c else {c with pc := .look}
  | .look => {c with pc := .compare,m := c.lock.remoteNumber}
  | .compare => if behind id remote c.n c.m then {c with m := c.lock.remoteNumber} else {c with pc := .critical}
  | .critical => {c with pc := .sendRelease,lock := {c.lock with localNumber := 0}}
  | .sendRelease => c.nocWrite .number .awaitRelease
  | .awaitRelease => c.await .idle
end Core

abbrev State := Bool → Core

inductive Action where
  | run (core : Bool)
  | fetch (core : Bool)
  | deliver (core : Bool)

def put (s : State) (core : Bool) (c : Core) : State := fun i => if i = core then c else s i

def apply (cpuid : Bool → Nat) (s : State) : Action → State
  | .run core => put s core ((s core).run (cpuid core) (cpuid !core))
  | .fetch core => put s core {s core with dma := (s core).dma.fetch (s core).lock.ownField}
  | .deliver core =>
    match (s core).dma.arrival with
    | none => s
    | some word =>
      put (put s core {s core with dma := (s core).dma.deliver}) (!core) {s !core with lock := (s !core).lock.receive word}

-- Ticket numbers stay below 2^32.
def Allowed (s : State) : Action → Prop
  | .run core => (s core).pc = .choose → (s core).lock.remoteNumber+1 < 2^32
  | _ => True

def initial (c : Core) : Prop := c.pc = .idle ∧ c.lock = ⟨0,0,0,0⟩ ∧ c.dma = .none

def system (cpuid : Bool → Nat) : System State Action where
  start s := ∀ core, initial (s core)
  admits s action := Allowed s action
  next s action := apply cpuid s action

section Own
structure View where
  entering : Nat
  number : Nat

def view (s : State) (core : Bool) : View := ⟨(s !core).lock.remoteEntering,(s !core).lock.remoteNumber⟩

-- The last write of a field is on its way, over the value it replaces, or has arrived.
inductive Sent (dma : Transfer Field Field Nat) (field : Field) (new old seen : Nat) : Prop where
  | underway : Carries dma field field new → seen = old → Sent dma field new old seen
  | arrived : dma = .none → seen = new → Sent dma field new old seen

-- The part of a core that only its own statements and its transfer change.
structure Part where
  dma : Transfer Field Field Nat
  entering : Nat
  number : Nat
  n : Nat

def Core.part (c : Core) : Part := ⟨c.dma,c.lock.localEntering,c.lock.localNumber,c.n⟩

inductive Own (c : Part) (v : View) : Pc → Prop where
  | idle : c.dma = .none → c.entering = 0 → c.number = 0 → v = ⟨0,0⟩ → Own c v .idle
  | sendEntering : c.dma = .none → c.entering = 1 → c.number = 0 → v = ⟨0,0⟩ → Own c v .sendEntering
  | awaitEntering : Sent c.dma .entering 1 0 v.entering → c.entering = 1 → c.number = 0 → v.number = 0 →
      Own c v .awaitEntering
  | choose : c.dma = .none → c.entering = 1 → c.number = 0 → v = ⟨1,0⟩ → Own c v .choose
  | setNumber : c.dma = .none → c.entering = 1 → c.n ≠ 0 → v = ⟨1,0⟩ → Own c v .setNumber
  | sendNumber : c.dma = .none → c.entering = 1 → c.number = c.n → c.n ≠ 0 → v = ⟨1,0⟩ → Own c v .sendNumber
  | awaitNumber : Sent c.dma .number c.n 0 v.number → c.entering = 1 → c.number = c.n → c.n ≠ 0 →
      v.entering = 1 → Own c v .awaitNumber
  | leave : c.dma = .none → c.n ≠ 0 → v = ⟨1,c.n⟩ → Own c v .leave
  | sendLeft : c.dma = .none → c.entering = 0 → c.n ≠ 0 → v = ⟨1,c.n⟩ → Own c v .sendLeft
  | watch : Sent c.dma .entering 0 1 v.entering → c.entering = 0 → c.n ≠ 0 → v.number = c.n → Own c v .watch
  | look : Sent c.dma .entering 0 1 v.entering → c.entering = 0 → c.n ≠ 0 → v.number = c.n → Own c v .look
  | compare : Sent c.dma .entering 0 1 v.entering → c.entering = 0 → c.n ≠ 0 → v.number = c.n → Own c v .compare
  | critical : Sent c.dma .entering 0 1 v.entering → c.entering = 0 → c.n ≠ 0 → v.number = c.n → Own c v .critical
  | sendRelease : Sent c.dma .entering 0 1 v.entering → c.entering = 0 → c.number = 0 → Own c v .sendRelease
  | awaitRelease : Sent c.dma .number 0 old v.number → c.entering = 0 → c.number = 0 → v.entering = 0 →
      Own c v .awaitRelease

theorem Sent.done (sent : Sent dma field new old seen) (done : dma.done = true) : dma = .none ∧ seen = new := by
  cases sent with
  | underway carries _ => rw [carries.not_done] at done; cases done
  | arrived finished seen => exact ⟨finished,seen⟩

theorem nocWrite_free (c : Core) (field : Field) (after : Pc) (free : c.dma = .none) :
    c.nocWrite field after = {c with pc := after,dma := ⟨[(field,field)],[]⟩} := if_pos (by rw [free]; rfl)

theorem View.eta {v : View} (entering : v.entering = e) (number : v.number = n) : v = ⟨e,n⟩ := by
  subst entering number
  rfl

theorem own_await {c : Core} (waits : Own c.part v c.pc) (done : c.dma.done = true → Own c.part v after) :
    Own (c.await after).part v (c.await after).pc := by
  unfold Core.await
  split
  case isTrue finished => exact done finished
  case isFalse => exact waits

theorem own_run {c : Core} (id remote : Nat) (small : c.pc = .choose → c.lock.remoteNumber+1 < 2^32) (own : Own c.part v c.pc) :
    Own (c.run id remote).part v (c.run id remote).pc := by
  generalize here : c.pc = pc at own
  unfold Core.run
  rw [here]
  cases own with
  | idle free _ number seen => exact .sendEntering free rfl number seen
  | sendEntering free entering number seen =>
    simp only [nocWrite_free c _ _ free]
    exact .awaitEntering (.underway (.waiting rfl) (by rw [seen])) entering number (by rw [seen])
  | awaitEntering sent entering number seen =>
    refine own_await (by rw [here]; exact .awaitEntering sent entering number seen) fun done => ?_
    obtain ⟨free,arrived⟩ := sent.done done
    exact .choose free entering number (View.eta arrived seen)
  | choose free entering number seen =>
    refine .setNumber free entering ?_ seen
    rw [Nat.mod_eq_of_lt (small here)]
    exact Nat.succ_ne_zero _
  | setNumber free entering positive seen => exact .sendNumber free entering rfl positive seen
  | sendNumber free entering number positive seen =>
    simp only [nocWrite_free c _ _ free]
    exact .awaitNumber (.underway (.waiting rfl) (by rw [seen])) entering number positive (by rw [seen])
  | awaitNumber sent entering number positive seen =>
    refine own_await (by rw [here]; exact .awaitNumber sent entering number positive seen) fun done => ?_
    obtain ⟨free,arrived⟩ := sent.done done
    exact .leave free positive (View.eta seen arrived)
  | leave free positive seen => exact .sendLeft free rfl positive seen
  | sendLeft free entering positive seen =>
    simp only [nocWrite_free c _ _ free]
    exact .watch (.underway (.waiting rfl) (by rw [seen])) entering positive (congrArg View.number seen)
  | watch sent entering positive seen =>
    by_cases busy : c.lock.remoteEntering = 1
    · simp only [if_pos busy,here]
      exact .watch sent entering positive seen
    · simp only [if_neg busy]
      exact .look sent entering positive seen
  | look sent entering positive seen => exact .compare sent entering positive seen
  | compare sent entering positive seen =>
    by_cases waits : Core.behind id remote c.n c.m
    · simp only [if_pos waits]
      exact .compare sent entering positive seen
    · simp only [if_neg waits]
      exact .critical sent entering positive seen
  | critical sent entering _ _ => exact .sendRelease sent entering rfl
  | sendRelease sent entering number =>
    by_cases done : c.dma.done = true
    · obtain ⟨free,arrived⟩ := sent.done done
      simp only [nocWrite_free c _ _ free]
      exact .awaitRelease (.underway (.waiting rfl) rfl) entering number arrived
    · simp only [Core.nocWrite,if_neg done,here]
      exact .sendRelease sent entering number
  | awaitRelease sent entering number seen =>
    refine own_await (by rw [here]; exact .awaitRelease sent entering number seen) fun done => ?_
    obtain ⟨free,arrived⟩ := sent.done done
    exact .idle free entering number (View.eta seen arrived)

theorem Sent.fetch {read : Field → Nat} (sent : Sent dma field new old seen) (holds : read field = new) :
    Sent (dma.fetch read) field new old seen := by
  subst holds
  cases sent with
  | underway carries old => exact .underway carries.fetch old
  | arrived free seen => exact .arrived (by rw [free]; rfl) seen

-- A core knows what its transfers do to the copy the other one has.
theorem Own.moves {c : Part} (own : Own c v pc) (rests : c.dma = .none → dma = .none ∧ w = v)
    (enters : ∀ {new old}, c.entering = new → Sent c.dma .entering new old v.entering →
      Sent dma .entering new old w.entering ∧ w.number = v.number)
    (numbers : ∀ {new old}, c.number = new → Sent c.dma .number new old v.number →
      Sent dma .number new old w.number ∧ w.entering = v.entering) : Own {c with dma := dma} w pc := by
  cases own with
  | idle free entering number seen | sendEntering free entering number seen | choose free entering number seen
  | setNumber free entering number seen | sendLeft free entering number seen =>
    obtain ⟨free,rfl⟩ := rests free
    constructor
    exacts [free,entering,number,seen]
  | sendNumber free entering number positive seen =>
    obtain ⟨free,rfl⟩ := rests free
    exact .sendNumber free entering number positive seen
  | leave free positive seen =>
    obtain ⟨free,rfl⟩ := rests free
    exact .leave free positive seen
  | awaitEntering sent entering number seen | watch sent entering number seen | look sent entering number seen
  | compare sent entering number seen | critical sent entering number seen =>
    obtain ⟨sent,same⟩ := enters entering sent
    constructor
    exacts [sent,entering,number,same.trans seen]
  | sendRelease sent entering number => exact .sendRelease (enters entering sent).1 entering number
  | awaitNumber sent entering number positive seen =>
    obtain ⟨sent,same⟩ := numbers number sent
    exact .awaitNumber sent entering number positive (same.trans seen)
  | awaitRelease sent entering number seen =>
    obtain ⟨sent,same⟩ := numbers number sent
    exact .awaitRelease sent entering number (same.trans seen)

theorem own_fetch {c : Core} (own : Own c.part v pc) : Own {c.part with dma := c.dma.fetch c.lock.ownField} v pc :=
  own.moves (fun free => ⟨(Transfer.rests _ free).1.trans free,rfl⟩) (fun holds sent => ⟨sent.fetch holds,rfl⟩)
    (fun holds sent => ⟨sent.fetch holds,rfl⟩)

def View.receive (v : View) : Field × Nat → View
  | (.entering,value) => {v with entering := value}
  | (.number,value) => {v with number := value}

theorem Sent.delivers (sent : Sent dma field new old seen) (arrival : dma.arrival = some word) :
    word = (field,new) ∧ Sent dma.deliver field new old new := by
  cases sent with
  | underway carries _ =>
    obtain ⟨same,free⟩ := carries.arrives arrival
    exact ⟨same,.arrived free rfl⟩
  | arrived free _ => rw [free] at arrival; cases arrival

theorem own_deliver {c : Part} (own : Own c v pc) (arrival : c.dma.arrival = some word) :
    Own {c with dma := c.dma.deliver} (v.receive word) pc := by
  refine own.moves (fun free => ?_) (fun _ sent => ?_) (fun _ sent => ?_)
  · rw [free] at arrival
    cases arrival
  all_goals
    obtain ⟨rfl,delivered⟩ := sent.delivers arrival
    exact ⟨delivered,rfl⟩
end Own

section Order
variable {cpuid : Bool → Nat} {s : State} {core : Bool} {c : Core} {id remote : Nat}

def passed : Pc → Bool
  | .look | .compare | .critical => true
  | _ => false

-- A number is chosen but the other core may not know it yet.
def numbering : Pc → Bool
  | .setNumber | .sendNumber | .awaitNumber => true
  | _ => false

def numbered : Pc → Bool
  | .leave | .sendLeft | .watch | .look | .compare | .critical => true
  | _ => false

def admitted (id remote : Nat) (c : Core) : Prop := c.pc = .critical ∨ c.pc = .compare ∧ ¬Core.behind id remote c.n c.m

section
variable (cpuid : Bool → Nat) (s : State) (core : Bool)

def First : Prop := (s core).n < (s !core).n ∨ (s core).n = (s !core).n ∧ cpuid core < cpuid !core

structure Ordered : Prop where
  own : Own (s core).part (view s core) (s core).pc
  late : passed (s core).pc = true → numbering (s !core).pc = true → (s core).n < (s !core).n
  first : admitted (cpuid core) (cpuid !core) (s core) →
    numbering (s !core).pc = true ∨ numbered (s !core).pc = true → First cpuid s core

theorem own_entering (own : Own c.part v c.pc) (choosing : numbering c.pc = true) : v.entering = 1 := by
  generalize c.pc = pc at own choosing
  cases own with
  | setNumber _ _ _ seen | sendNumber _ _ _ _ seen => rw [seen]
  | awaitNumber _ _ _ _ seen => exact seen
  | _ => cases choosing

theorem own_number (own : Own c.part v c.pc) (chosen : numbered c.pc = true) : v.number = c.n ∧ c.n ≠ 0 := by
  generalize c.pc = pc at own chosen
  cases own with
  | leave _ positive seen | sendLeft _ _ positive seen =>
    exact ⟨congrArg View.number seen,positive⟩
  | watch _ _ positive seen | look _ _ positive seen | compare _ _ positive seen | critical _ _ positive seen =>
    exact ⟨seen,positive⟩
  | _ => cases chosen

section
variable (c : Core) (field : Field) (after : Pc)

@[simp] theorem nocWrite_lock : (c.nocWrite field after).lock = c.lock := by
  unfold Core.nocWrite
  split <;> rfl

@[simp] theorem nocWrite_n : (c.nocWrite field after).n = c.n := by
  unfold Core.nocWrite
  split <;> rfl

@[simp] theorem await_lock : (c.await after).lock = c.lock := by
  unfold Core.await
  split <;> rfl

@[simp] theorem await_n : (c.await after).n = c.n := by
  unfold Core.await
  split <;> rfl
end

theorem run_remote (id remote : Nat) (c : Core) :
    (c.run id remote).lock.remoteEntering = c.lock.remoteEntering ∧
      (c.run id remote).lock.remoteNumber = c.lock.remoteNumber := by
  unfold Core.run
  cases c.pc with
  | watch | compare =>
    simp only
    split <;> exact ⟨rfl,rfl⟩
  | _ => simp

theorem run_number (id remote : Nat) (c : Core) (other : c.pc ≠ .choose) : (c.run id remote).n = c.n := by
  unfold Core.run
  cases here : c.pc with
  | choose => exact absurd here other
  | watch | compare =>
    simp only
    split <;> rfl
  | _ => simp

theorem passed_run (after : passed (c.run id remote).pc = true) :
    passed c.pc = true ∨ c.pc = .watch ∧ c.lock.remoteEntering ≠ 1 := by
  cases here : c.pc with
  | look | compare | critical => exact .inl rfl
  | watch =>
    by_cases busy : c.lock.remoteEntering = 1
    · simp [Core.run,here,busy,passed] at after
    · exact .inr ⟨rfl,busy⟩
  | _ =>
    simp only [Core.run,here,Core.nocWrite,Core.await] at after
    first | cases after | (split at after <;> simp [passed,here] at after)

theorem numbering_run (after : numbering (c.run id remote).pc = true) : c.pc = .choose ∨ numbering c.pc = true := by
  cases here : c.pc with
  | choose => exact .inl rfl
  | setNumber | sendNumber | awaitNumber => exact .inr rfl
  | _ =>
    simp only [Core.run,here,Core.nocWrite,Core.await] at after
    first | cases after | (split at after <;> simp [numbering,here] at after)

theorem numbered_run (after : numbered (c.run id remote).pc = true) : numbering c.pc = true ∨ numbered c.pc = true := by
  cases here : c.pc with
  | setNumber | sendNumber | awaitNumber => exact .inl rfl
  | leave | sendLeft | watch | look | compare | critical => exact .inr rfl
  | _ =>
    simp only [Core.run,here,Core.nocWrite,Core.await] at after
    first | cases after | (split at after <;> simp [numbered,here] at after)

theorem admitted_run (after : admitted id remote (c.run id remote)) :
    admitted id remote c ∨ passed c.pc = true ∧ ¬Core.behind id remote c.n c.lock.remoteNumber := by
  cases here : c.pc with
  | critical => exact .inl (.inl here)
  | look =>
    simp only [Core.run,here] at after
    rcases after with wrong | ⟨-,ahead⟩
    · cases wrong
    · exact .inr ⟨rfl,ahead⟩
  | compare =>
    by_cases waits : Core.behind id remote c.n c.m
    · simp only [Core.run,here,if_pos waits] at after
      rcases after with wrong | ⟨-,ahead⟩
      · cases wrong
      · exact .inr ⟨rfl,ahead⟩
    · exact .inl (.inr ⟨here,waits⟩)
  | _ =>
    simp only [Core.run,here,Core.nocWrite,Core.await,admitted] at after
    first | (rcases after with wrong | ⟨wrong,-⟩ <;> cases wrong) | (split at after <;> simp [here] at after)

@[simp] theorem put_same (c : Core) : put s core c core = c := if_pos rfl
@[simp] theorem put_other (c : Core) : put s core c (!core) = s !core := by cases core <;> rfl
@[simp] theorem put_back (c : Core) : put s (!core) c core = s core := by cases core <;> rfl
end

section
variable (distinct : cpuid core ≠ cpuid !core) (mine : Ordered cpuid s core) (other : Ordered cpuid s !core)
include distinct mine other

-- Behind its own number the core knows the number of the other one, or the other one has chosen its number later.
theorem first_seen (watched : passed (s core).pc = true)
    (ahead : ¬Core.behind (cpuid core) (cpuid !core) (s core).n (s core).lock.remoteNumber)
    (chosen : numbering (s !core).pc = true ∨ numbered (s !core).pc = true) : First cpuid s core := by
  rcases chosen with chosen | chosen
  · exact .inl (mine.late watched chosen)
  · obtain ⟨seen,positive⟩ := own_number other.own chosen
    have known : (s core).lock.remoteNumber = (s !core).n := by simpa [view] using seen
    unfold Core.behind at ahead
    unfold First
    omega

theorem ordered_run_self (allowed : Allowed s (.run core)) : Ordered cpuid (apply cpuid s (.run core)) core := by
  have same : view (apply cpuid s (.run core)) core = view s core := by simp [view,apply]
  refine ⟨?_,fun watched chosen => ?_,fun enters chosen => ?_⟩
  · rw [same]
    simpa [apply] using own_run _ _ allowed mine.own
  · simp only [apply,put_same,put_other] at watched chosen ⊢
    rcases passed_run watched with already | ⟨watch,down⟩
    · rw [run_number _ _ _ (fun here => by rw [here] at already; cases already)]
      exact mine.late already chosen
    · have up : (s core).lock.remoteEntering = 1 := by simpa [view] using own_entering other.own chosen
      exact absurd up down
  · simp only [apply,put_same,put_other] at enters chosen
    have unchanged (here : (s core).pc ≠ .choose) (first : First cpuid s core) :
        First cpuid (apply cpuid s (.run core)) core := by
      simpa [First,apply,run_number _ _ _ here] using first
    rcases admitted_run enters with already | ⟨watched,ahead⟩
    · refine unchanged (fun here => ?_) (mine.first already chosen)
      rcases already with there | ⟨there,-⟩ <;> rw [here] at there <;> cases there
    · exact unchanged (fun here => by rw [here] at watched; cases watched)
        (first_seen distinct mine other watched ahead chosen)
end

theorem chooses_behind (mine : Ordered cpuid s core) (allowed : Allowed s (.run !core)) (here : (s !core).pc = .choose)
    (watched : passed (s core).pc = true) : (s core).n < ((s !core).run (cpuid !core) (cpuid core)).n := by
  have chosen : numbered (s core).pc = true := by
    cases pc : (s core).pc <;> first | rfl | (rw [pc] at watched; cases watched)
  have known : (s !core).lock.remoteNumber = (s core).n := (own_number mine.own chosen).1
  simp only [Core.run,here]
  rw [Nat.mod_eq_of_lt (allowed here),known]
  exact Nat.lt_succ_self _

theorem ordered_run_other (mine : Ordered cpuid s core) (allowed : Allowed s (.run !core)) :
    Ordered cpuid (apply cpuid s (.run !core)) core := by
  obtain ⟨entering,number⟩ := run_remote (cpuid !core) (cpuid core) (s !core)
  have same : view (apply cpuid s (.run !core)) core = view s core := by simp [view,apply,entering,number]
  refine ⟨?_,fun watched chosen => ?_,fun enters chosen => ?_⟩
  · rw [same]
    simpa [apply] using mine.own
  · simp only [apply,put_same,put_back,Bool.not_not] at watched chosen ⊢
    rcases numbering_run chosen with here | already
    · exact chooses_behind mine allowed here watched
    · rw [run_number _ _ _ (fun here => by rw [here] at already; cases already)]
      exact mine.late watched already
  · simp only [apply,put_same,put_back] at enters chosen
    have watched : passed (s core).pc = true := by
      rcases enters with here | ⟨here,-⟩ <;> rw [here] <;> rfl
    have before : (s !core).pc = .choose ∨ numbering (s !core).pc = true ∨ numbered (s !core).pc = true := by
      rcases chosen with chosen | chosen
      · exact (numbering_run chosen).imp_right .inl
      · exact .inr (numbered_run chosen)
    by_cases here : (s !core).pc = .choose
    · refine .inl ?_
      simpa [apply] using chooses_behind mine allowed here watched
    · simpa [First,apply,run_number _ _ _ here] using mine.first enters (before.resolve_left here)

theorem mover_cases (mover core : Bool) : core = mover ∨ core = !mover := by
  cases mover <;> cases core <;> simp

theorem ordered_fetch (mine : Ordered cpuid s core) (mover : Bool) : Ordered cpuid (apply cpuid s (.fetch mover)) core := by
  rcases mover_cases mover core with rfl | rfl
  · refine ⟨?_,?_,?_⟩
    · simpa [apply,view,Core.part] using own_fetch mine.own
    · simpa [apply] using mine.late
    · simpa [apply,admitted,First] using mine.first
  · refine ⟨?_,?_,?_⟩
    · simpa [apply,view] using mine.own
    · simpa [apply] using mine.late
    · simpa [apply,First] using mine.first

theorem ordered_deliver (mine : Ordered cpuid s core) (mover : Bool) : Ordered cpuid (apply cpuid s (.deliver mover)) core := by
  cases arrival : (s mover).dma.arrival with
  | none => simpa only [apply,arrival] using mine
  | some word =>
    simp only [apply,arrival]
    rcases mover_cases mover core with rfl | rfl
    · refine ⟨?_,?_,?_⟩
      · have delivered := own_deliver mine.own arrival
        obtain ⟨field,value⟩ := word
        cases field <;> simpa [view,Core.part,Lock.receive,View.receive] using delivered
      · simpa using mine.late
      · simpa [admitted,First] using mine.first
    · refine ⟨?_,?_,?_⟩
      · obtain ⟨field,value⟩ := word
        cases field <;> simpa [view,Core.part,Lock.receive] using mine.own
      · simpa using mine.late
      · simpa [admitted,First] using mine.first

theorem ordered_start (begun : (system cpuid).start s) : Ordered cpuid s core := by
  obtain ⟨idle,lock,free⟩ := begun core
  obtain ⟨-,away,-⟩ := begun !core
  refine ⟨?_,fun watched => ?_,fun enters => ?_⟩
  · rw [idle]
    exact .idle free (by rw [Core.part,lock]) (by rw [Core.part,lock]) (by rw [view,away])
  · rw [idle] at watched
    cases watched
  · rcases enters with there | ⟨there,-⟩ <;> rw [idle] at there <;> cases there

theorem ordered_step (distinct : cpuid false ≠ cpuid true) (valid : ∀ core, Ordered cpuid s core)
    (allowed : Allowed s action) (core : Bool) : Ordered cpuid (apply cpuid s action) core := by
  have apart : cpuid core ≠ cpuid !core := by
    cases core with
    | false => exact distinct
    | true => exact distinct.symm
  cases action with
  | run mover =>
    rcases mover_cases mover core with rfl | rfl
    · exact ordered_run_self apart (valid core) (valid !core) allowed
    · have other := @ordered_run_other cpuid s (!mover) (valid !mover)
      rw [Bool.not_not] at other
      exact other allowed
  | fetch mover => exact ordered_fetch (valid core) mover
  | deliver mover => exact ordered_deliver (valid core) mover

theorem reached_ordered (distinct : cpuid false ≠ cpuid true) (path : Reached (system cpuid) s) :
    ∀ core, Ordered cpuid s core :=
  path.invariant (fun _ begun _ => ordered_start begun) (fun _ _ valid allowed => ordered_step distinct valid allowed)
end Order

theorem bakery_mutual_exclusion (cpuid : Bool → Nat) (distinct : cpuid false ≠ cpuid true) (s : State)
    (path : Reached (system cpuid) s) : ¬((s false).pc = .critical ∧ (s true).pc = .critical) := by
  intro both
  have valid := reached_ordered distinct path
  have left : First cpuid s false := (valid false).first (.inl both.1) (.inr (by rw [Bool.not_false,both.2]; rfl))
  have right : First cpuid s true := (valid true).first (.inl both.2) (.inr (by rw [Bool.not_true,both.1]; rfl))
  unfold First at left right
  simp only [Bool.not_false,Bool.not_true] at left right
  omega

instance (s : State) (action : Action) : Decidable (Allowed s action) :=
  match action with
  | .run core => inferInstanceAs (Decidable ((s core).pc = .choose → (s core).lock.remoteNumber+1 < 2^32))
  | .fetch _ => isTrue trivial
  | .deliver _ => isTrue trivial

instance (cpuid : Bool → Nat) (s : State) (action : Action) : Decidable ((system cpuid).admits s action) :=
  inferInstanceAs (Decidable (Allowed s action))

def idle : State := fun _ => ⟨.idle,⟨0,0,0,0⟩,.none,0,0⟩

def ids (core : Bool) : Nat := if core then 5 else 3

-- Both cores ask for the lock and take the same number.
def asks (core : Bool) : List Action :=
  [.run core,.run core,.fetch core,.deliver core,.run core,.run core]

def takes (core : Bool) : List Action :=
  [.run core,.run core,.fetch core,.deliver core,.run core,.run core,.run core,.fetch core,.deliver core]

def contended : List Action :=
  asks false ++ asks true ++ takes false ++ takes true ++
    [.run false,.run true,.run false,.run true,.run false,.run true]

theorem bakery_mutual_exclusion_contended :
    let s := (system ids).run idle contended
    ((s false).pc = .critical ∧ (s true).pc = .compare ∧ (s false).n = (s true).n) ∧
      ¬((s false).pc = .critical ∧ (s true).pc = .critical) :=
  ⟨by decide +kernel,bakery_mutual_exclusion ids (by decide) _
    ((Reached.start fun _ => ⟨rfl,rfl,rfl⟩).run contended (by decide +kernel))⟩
end Patmos.BakeryLock
