import Patmos.CircularBuffer
import Patmos.RegisterWidth
import Patmos.TransitionSystem
namespace Patmos.Tte
open Function List Nat

structure Frame where
  addr : BitVec 32
  size : BitVec 32
  deriving DecidableEq

-- What tte_init_VL and tte_generate_schedule have set up.
structure Setup (links : Nat) where
  maxQueue : Fin links → Nat
  nonempty : ∀ i, 1 ≤ maxQueue i
  char : ∀ i, maxQueue i < 256
  vlSched : Nat → Fin links
  maxSched : Nat

structure VL where
  queue : Nat → BitVec 32
  sizeQueue : Nat → BitVec 32
  addplace : Nat
  rmplace : Nat

inductive Statement where
  | test
  | storeAddress
  | storeSize
  | advance
  | compare
  | reset
  | succeed
  | refuse
  deriving DecidableEq

structure Call (links : Nat) where
  link : Fin links
  frame : Frame
  statement : Statement

-- `returned` are the frames of the calls that returned 1, `sent` those handed to eth_mac_send.
structure State (links : Nat) where
  vl : Fin links → VL
  schedplace : Nat
  armed : Bool
  call : Option (Call links)
  returned : Fin links → List Frame
  sent : Fin links → List Frame

namespace VL
def tteInitVL : VL := {queue := fun _ => 0#32,sizeQueue := fun _ => 0#32,addplace := 0,rmplace := 0}

def storeAddress (v : VL) (addr : BitVec 32) : VL := {v with queue := update v.queue v.addplace addr}
def storeSize (v : VL) (size : BitVec 32) : VL := {v with sizeQueue := update v.sizeQueue v.addplace size}
def advance (v : VL) : VL := {v with addplace := (v.addplace+1) % 256}
def reset (v : VL) : VL := {v with addplace := 0}

def frame (v : VL) : Frame := ⟨v.queue v.rmplace,v.sizeQueue v.rmplace⟩

def tteSendData (maxQueue : Nat) (v : VL) : VL :=
  let rmplace := (v.rmplace+1) % 256
  {v with queue := update v.queue v.rmplace 0#32,rmplace := if rmplace = maxQueue then 0 else rmplace}
end VL

inductive Event (links : Nat) where
  | call (link : Fin links) (frame : Frame)
  | statement
  | tick
  | integrate

section Model
variable {links : Nat} (t : Setup links)

def tteScheduleSend (s : State links) (c : Call links) : State links :=
  let v := s.vl c.link
  match c.statement with
  | .test =>
    if v.queue v.addplace = 0#32 then {s with call := some {c with statement := .storeAddress}}
    else {s with call := some {c with statement := .refuse}}
  | .storeAddress =>
    {s with vl := update s.vl c.link (v.storeAddress c.frame.addr),call := some {c with statement := .storeSize}}
  | .storeSize =>
    {s with vl := update s.vl c.link (v.storeSize c.frame.size),call := some {c with statement := .advance}}
  | .advance => {s with vl := update s.vl c.link v.advance,call := some {c with statement := .compare}}
  | .compare =>
    if v.addplace = t.maxQueue c.link then {s with call := some {c with statement := .reset}}
    else {s with call := some {c with statement := .succeed}}
  | .reset => {s with vl := update s.vl c.link v.reset,call := some {c with statement := .succeed}}
  | .succeed => {s with call := none,returned := update s.returned c.link (s.returned c.link ++ [c.frame])}
  | .refuse => {s with call := none}

-- The timer is armed again unless the schedule is at its end.
def tteClockTick (s : State links) : State links :=
  let i := t.vlSched s.schedplace
  let schedplace := (s.schedplace+1) % 256
  let s := {s with schedplace := schedplace,armed := decide (schedplace < t.maxSched)}
  let v := s.vl i
  if v.queue v.rmplace ≠ 0#32 then
    {s with vl := update s.vl i (v.tteSendData (t.maxQueue i)),
            sent := update s.sent i (s.sent i ++ [v.frame])}
  else s

-- An integration frame of cycle 0 starts the schedule.
def integrate (s : State links) : State links := {s with schedplace := 0,armed := true}

def next (s : State links) : Event links → State links
  | .call link frame => {s with call := some ⟨link,frame,.test⟩}
  | .statement => match s.call with
    | some c => tteScheduleSend t s c
    | none => s
  | .tick => tteClockTick t s
  | .integrate => integrate s

def admits (s : State links) : Event links → Prop
  | .call _ frame => s.call.isNone ∧ frame.addr ≠ 0#32
  | .statement => s.call.isSome
  | .tick => s.armed = true
  | .integrate => True

instance decidableAdmits (s : State links) : ∀ e, Decidable (admits s e)
  | .call _ frame => inferInstanceAs (Decidable (s.call.isNone ∧ frame.addr ≠ 0#32))
  | .statement => inferInstanceAs (Decidable (s.call.isSome = true))
  | .tick => inferInstanceAs (Decidable (s.armed = true))
  | .integrate => inferInstanceAs (Decidable True)

def initial : State links where
  vl _ := .tteInitVL
  schedplace := 0
  armed := false
  call := none
  returned _ := []
  sent _ := []

def system : Transition.System (State links) (Event links) where
  start s := s = initial
  admits := admits
  next := next t

instance decidableSystem (s : State links) (e : Event links) : Decidable ((system t).admits s e) := decidableAdmits s e

-- The tick does not find the slot whose size is not stored yet at the head of its queue.
def Undisturbed (s : State links) : Event links → Prop
  | .tick => ∀ c ∈ s.call, c.statement = .storeSize → t.vlSched s.schedplace = c.link →
      (s.vl c.link).addplace ≠ (s.vl c.link).rmplace
  | _ => True

instance decidableUndisturbed (s : State links) : ∀ e, Decidable (Undisturbed t s e)
  | .tick => inferInstanceAs (Decidable (∀ c ∈ s.call, c.statement = .storeSize → t.vlSched s.schedplace = c.link →
      (s.vl c.link).addplace ≠ (s.vl c.link).rmplace))
  | .call _ _ | .statement | .integrate => inferInstanceAs (Decidable True)

def ticked (i : Fin links) (s : State links) : Event links → List Unit
  | .tick => if t.vlSched s.schedplace = i then [()] else []
  | _ => []
end Model

section Queue
variable {size : Nat} {v : VL} {entered sent : List Frame} {sized : Nat}

-- The queue of a link: the frames of the numbers from sent.length on are in it, all but the last one with their size.
structure Kept (size : Nat) (v : VL) (entered sent : List Frame) (sized : Nat) : Prop where
  behind : sent.length ≤ sized
  written : sized ≤ entered.length
  room : entered.length ≤ sent.length+size
  rmplace : v.rmplace = sent.length % size
  order : sent <+: entered
  nonzero : ∀ f ∈ entered, f.addr ≠ 0#32
  addresses : CircularBuffer.Holds size v.queue (fun k addr => entered[k]?.map Frame.addr = some addr) sent.length entered.length
  sizes : CircularBuffer.Holds size v.sizeQueue (fun k size => entered[k]?.map Frame.size = some size) sent.length sized
  free : CircularBuffer.Holds size v.queue (fun _ addr => addr = 0#32) entered.length (sent.length+size)

theorem kept_initial (size : Nat) : Kept size .tteInitVL [] [] 0 where
  behind := le_refl 0
  written := le_refl 0
  room := zero_le _
  rmplace := (zero_mod size).symm
  order := nil_prefix
  nonzero := nofun
  addresses := .empty (le_refl 0)
  sizes := .empty (le_refl 0)
  free := fun _ _ _ => rfl

namespace Kept
section
variable (kept : Kept size v entered sent sized)
include kept

theorem waits (fewer : sent.length < entered.length) :
    v.queue v.rmplace ≠ 0#32 ∧ (sent.length < sized → entered[sent.length]? = some v.frame) := by
  obtain ⟨f,found⟩ : ∃ f, entered[sent.length]? = some f := ⟨_,getElem?_eq_getElem fewer⟩
  have address := kept.addresses _ le_rfl fewer
  rw [← kept.rmplace,found,Option.map_some,Option.some_inj] at address
  refine ⟨?_,fun known => ?_⟩
  · rw [← address]
    exact kept.nonzero f (mem_of_getElem? found)
  · have stored := kept.sizes _ le_rfl known
    rw [← kept.rmplace,found,Option.map_some,Option.some_inj] at stored
    rw [found,VL.frame,← address,← stored]

theorem rests (positive : 0 < size) (none : entered.length ≤ sent.length) : v.queue v.rmplace = 0#32 := by
  have free := kept.free sent.length none (by omega)
  rwa [← kept.rmplace] at free

theorem full (positive : 0 < size) (place : v.addplace = entered.length % size) :
    v.queue v.addplace ≠ 0#32 ↔ entered.length = sent.length+size := by
  constructor
  · intro taken
    by_contra space
    have room := kept.room
    rw [place] at taken
    exact taken (kept.free entered.length le_rfl (by omega))
  · intro all
    have head : v.addplace = v.rmplace := by rw [place,kept.rmplace,all,add_mod_right]
    rw [head]
    exact (kept.waits (by omega)).1
end

theorem enter (kept : Kept size v entered sent entered.length) (place : v.addplace = entered.length % size)
    (space : entered.length < sent.length+size) (nonzero : f.addr ≠ 0#32) :
    Kept size (v.storeAddress f.addr) (entered ++ [f]) sent entered.length where
  behind := kept.behind
  written := by simp
  room := by
    rw [length_append]
    exact space
  rmplace := kept.rmplace
  order := kept.order.trans (prefix_append entered [f])
  nonzero := by
    intro g member
    rcases mem_append.mp member with old | new
    · exact kept.nonzero g old
    · rwa [mem_singleton.mp new]
  addresses := by
    have before : CircularBuffer.Holds size v.queue (fun k addr => (entered ++ [f])[k]?.map Frame.addr = some addr)
        sent.length entered.length :=
      kept.addresses.weaken fun k addr _ inside known => by rwa [getElem?_append_left inside]
    have after := before.push kept.behind space f.addr (by simp)
    rw [VL.storeAddress,place,length_append]
    exact after
  sizes := kept.sizes.weaken fun k size _ inside known => by rwa [getElem?_append_left inside]
  free := by
    have behind := kept.behind
    have written : CircularBuffer.Holds size (update v.queue (entered.length % size) f.addr)
        (fun k addr => k ≠ entered.length → addr = 0#32) entered.length (sent.length+size) :=
      kept.free.write (Nat.add_le_add_right behind size) le_rfl (by omega) (fun _ _ _ _ _ known _ => known)
        (fun _ => absurd rfl)
    rw [VL.storeAddress,place,length_append]
    intro k above below
    exact written k (by omega) below (by simp at above; omega)

section
variable (kept : Kept size v entered sent sized)
include kept

theorem measure (place : v.addplace = sized % size) (last : entered[sized]? = some f) :
    Kept size (v.storeSize f.size) entered sent (sized+1) := by
  have inside : sized < entered.length := (List.getElem?_eq_some_iff.mp last).1
  refine {kept with behind := le_succ_of_le kept.behind,written := inside,sizes := ?_}
  rw [VL.storeSize,place]
  exact kept.sizes.push kept.behind (inside.trans_le kept.room) f.size (by rw [last]; rfl)

theorem moved (queue : w.queue = v.queue) (sizes : w.sizeQueue = v.sizeQueue)
    (rmplace : w.rmplace = v.rmplace) : Kept size w entered sent sized where
  behind := kept.behind
  written := kept.written
  room := kept.room
  rmplace := rmplace.trans kept.rmplace
  order := kept.order
  nonzero := kept.nonzero
  addresses := queue ▸ kept.addresses
  sizes := sizes ▸ kept.sizes
  free := queue ▸ kept.free

theorem send (char : size < 256) (positive : 0 < size) (known : sent.length < sized) :
    Kept size (v.tteSendData size) entered (sent ++ [v.frame]) sized := by
  have waiting : sent.length < entered.length := known.trans_le kept.written
  have head := (kept.waits waiting).2 known
  have length : (sent ++ [v.frame]).length = sent.length+1 := by simp
  have bound := mod_lt sent.length positive
  have room := kept.room
  constructor
  · rw [length]
    exact known
  · exact kept.written
  · omega
  · rw [length,← Register.succ_mod positive,VL.tteSendData,kept.rmplace,mod_eq_of_lt (a := sent.length % size+1) (by omega)]
    exact if_congr (by omega) rfl rfl
  · obtain ⟨rest,rfl⟩ := kept.order
    rw [getElem?_append_right le_rfl,Nat.sub_self] at head
    cases rest with
    | nil => simp at head
    | cons f rest =>
      cases Option.some_inj.mp head
      exact ⟨rest,by simp⟩
  · exact kept.nonzero
  · have written : CircularBuffer.Holds size (update v.queue (sent.length % size) 0#32)
        (fun k addr => k ≠ sent.length → entered[k]?.map Frame.addr = some addr) sent.length entered.length :=
      kept.addresses.write room le_rfl (by omega) (fun _ _ _ _ _ known _ => known) (fun _ => absurd rfl)
    rw [VL.tteSendData,kept.rmplace]
    intro k above below
    exact written k (by omega) below (by omega)
  · rw [length]
    exact kept.sizes.within (le_succ _) le_rfl
  · have freed := kept.free.push room (by omega) 0#32 rfl
    rw [add_mod_right] at freed
    rw [VL.tteSendData,kept.rmplace,length,add_right_comm]
    exact freed
end
end Kept

inductive Link (size : Nat) (v : VL) (returned sent : List Frame) : Option (Frame × Statement) → Prop where
  | idle : Kept size v returned sent returned.length → v.addplace = returned.length % size → Link size v returned sent none
  | test : Kept size v returned sent returned.length → v.addplace = returned.length % size → f.addr ≠ 0#32 →
      Link size v returned sent (some (f,.test))
  | storeAddress : Kept size v returned sent returned.length → v.addplace = returned.length % size → f.addr ≠ 0#32 →
      returned.length < sent.length+size → Link size v returned sent (some (f,.storeAddress))
  | storeSize : Kept size v (returned ++ [f]) sent returned.length → v.addplace = returned.length % size →
      Link size v returned sent (some (f,.storeSize))
  | advance : Kept size v (returned ++ [f]) sent (returned.length+1) → v.addplace = returned.length % size →
      Link size v returned sent (some (f,.advance))
  | compare : Kept size v (returned ++ [f]) sent (returned.length+1) → v.addplace = returned.length % size+1 →
      Link size v returned sent (some (f,.compare))
  | reset : Kept size v (returned ++ [f]) sent (returned.length+1) → returned.length % size+1 = size →
      Link size v returned sent (some (f,.reset))
  | succeed : Kept size v (returned ++ [f]) sent (returned.length+1) → v.addplace = (returned.length+1) % size →
      Link size v returned sent (some (f,.succeed))
  | refuse : Kept size v returned sent returned.length → v.addplace = returned.length % size →
      Link size v returned sent (some (f,.refuse))
end Queue

def Statement.stored : Statement → Bool
  | .storeSize | .advance | .compare | .reset | .succeed => true
  | _ => false

-- The frames that are in the queue already, in a call that has not returned yet.
def pending : Option (Frame × Statement) → List Frame
  | some (f,p) => if p.stored then [f] else []
  | none => []

section Links
variable {size : Nat} {v : VL} {returned sent : List Frame} {phase : Option (Frame × Statement)}

theorem Link.kept (link : Link size v returned sent phase) : ∃ sized, Kept size v (returned ++ pending phase) sent sized := by
  cases link with
  | idle kept place | test kept place nonzero | storeAddress kept place nonzero space | refuse kept place =>
    exact ⟨_,by simpa [pending,Statement.stored] using kept⟩
  | storeSize kept place | advance kept place | compare kept place | reset kept last | succeed kept place => exact ⟨_,kept⟩

theorem Link.tick (link : Link size v returned sent phase) (char : size < 256) (positive : 0 < size)
    (waits : v.queue v.rmplace ≠ 0#32) (undisturbed : ∀ f, phase = some (f,.storeSize) → v.addplace ≠ v.rmplace) :
    Link size (v.tteSendData size) returned (sent ++ [v.frame]) phase := by
  have some {entered : List Frame} (kept : Kept size v entered sent entered.length) : sent.length < entered.length :=
    Nat.lt_of_not_le fun none => waits (kept.rests positive none)
  have last {f : Frame} (kept : Kept size v (returned ++ [f]) sent (returned.length+1)) : sent.length < returned.length+1 := by
    have few := some (by simpa using kept : Kept size v (returned ++ [f]) sent (returned ++ [f]).length)
    simpa using few
  cases link with
  | idle kept place => exact .idle (kept.send char positive (some kept)) place
  | test kept place nonzero => exact .test (kept.send char positive (some kept)) place nonzero
  | storeAddress kept place nonzero space =>
    refine .storeAddress (kept.send char positive (some kept)) place nonzero ?_
    rw [length_append]
    omega
  | storeSize kept place =>
    have apart := undisturbed _ rfl
    rw [place,kept.rmplace] at apart
    have behind := kept.behind
    exact .storeSize (kept.send char positive (lt_of_le_of_ne behind fun same => apart (by rw [same]))) place
  | advance kept place => exact .advance (kept.send char positive (last kept)) place
  | compare kept place => exact .compare (kept.send char positive (last kept)) place
  | reset kept full => exact .reset (kept.send char positive (last kept)) full
  | succeed kept place => exact .succeed (kept.send char positive (last kept)) place
  | refuse kept place => exact .refuse (kept.send char positive (some kept)) place
end Links

section Runs
variable {links : Nat} {t : Setup links} {s : State links}

def State.phase (s : State links) (i : Fin links) : Option (Frame × Statement) :=
  s.call.bind fun c => if c.link = i then some (c.frame,c.statement) else none

def Valid (t : Setup links) (s : State links) : Prop :=
  ∀ i, Link (t.maxQueue i) (s.vl i) (s.returned i) (s.sent i) (s.phase i)

theorem phase_self (calling : s.call = some c) : s.phase c.link = some (c.frame,c.statement) := by
  rw [State.phase,calling]
  exact if_pos rfl

theorem phase_other (calling : s.call = some c) (other : i ≠ c.link) : s.phase i = none := by
  rw [State.phase,calling]
  exact if_neg fun same => other same.symm

theorem phase_none (calling : s.call = none) (i : Fin links) : s.phase i = none := by
  rw [State.phase,calling]
  rfl

theorem initial_valid (t : Setup links) : Valid t initial := fun i =>
  .idle (kept_initial (t.maxQueue i)) (zero_mod _).symm

theorem statement_other (t : Setup links) (s : State links) (c : Call links) (other : i ≠ c.link) :
    (tteScheduleSend t s c).vl i = s.vl i ∧ (tteScheduleSend t s c).returned i = s.returned i ∧
    (tteScheduleSend t s c).phase i = none := by
  have away {frame : Frame} {p : Statement} {u : State links} (calling : u.call = some ⟨c.link,frame,p⟩) : u.phase i = none :=
    phase_other calling other
  unfold tteScheduleSend
  cases c.statement with
  | test | compare =>
    dsimp only
    split <;> exact ⟨rfl,rfl,away rfl⟩
  | storeAddress | storeSize | advance | reset => exact ⟨update_of_ne other _ _,rfl,away rfl⟩
  | succeed => exact ⟨rfl,update_of_ne other _ _,rfl⟩
  | refuse => exact ⟨rfl,rfl,rfl⟩

theorem statement_sent (t : Setup links) (s : State links) (c : Call links) : (tteScheduleSend t s c).sent = s.sent := by
  unfold tteScheduleSend
  cases c.statement with
  | test | compare =>
    dsimp only
    split <;> rfl
  | storeAddress | storeSize | advance | reset | succeed | refuse => rfl

theorem statement_own (valid : Valid t s) (calling : s.call = some c) :
    Link (t.maxQueue c.link) ((tteScheduleSend t s c).vl c.link) ((tteScheduleSend t s c).returned c.link) (s.sent c.link)
      ((tteScheduleSend t s c).phase c.link) := by
  have link := valid c.link
  have positive := t.nonempty c.link
  have char := t.char c.link
  have bound := mod_lt (s.returned c.link).length positive
  rw [phase_self calling] at link
  have later {p : Statement} {u : State links} (after : u.call = some {c with statement := p}) :
      u.phase c.link = some (c.frame,p) := phase_self after
  unfold tteScheduleSend
  generalize c.statement = p at link
  cases link with
  | test kept place nonzero =>
    dsimp only
    split
    case isTrue free =>
      rw [later rfl]
      refine .storeAddress kept place nonzero (lt_of_le_of_ne kept.room fun all => ?_)
      exact (kept.full positive place).mpr all free
    case isFalse taken =>
      rw [later rfl]
      exact .refuse kept place
  | storeAddress kept place nonzero space =>
    dsimp only
    rw [later rfl,update_self]
    exact .storeSize (kept.enter place space nonzero) place
  | storeSize kept place =>
    dsimp only
    rw [later rfl,update_self]
    exact .advance (kept.measure place (by simp)) place
  | advance kept place =>
    dsimp only
    rw [later rfl,update_self]
    refine .compare (kept.moved rfl rfl rfl) ?_
    rw [VL.advance,place]
    exact mod_eq_of_lt (by omega)
  | compare kept place =>
    dsimp only
    split
    case isTrue last =>
      rw [later rfl]
      exact .reset kept (place.symm.trans last)
    case isFalse more =>
      rw [later rfl]
      refine .succeed kept ?_
      rw [place,← Register.succ_mod positive,if_neg (by omega : (s.returned c.link).length % t.maxQueue c.link ≠ _)]
  | reset kept last =>
    dsimp only
    rw [later rfl,update_self]
    refine .succeed (kept.moved rfl rfl rfl) ?_
    rw [← Register.succ_mod positive,if_pos (by omega)]
    rfl
  | succeed kept place =>
    exact .idle (by simpa using kept) (by simpa using place)
  | refuse kept place =>
    exact .idle kept place

section Tick
variable (t s) {i : Fin links}

theorem tick_phase : (tteClockTick t s).returned = s.returned ∧ (tteClockTick t s).phase = s.phase := by
  unfold tteClockTick
  dsimp only
  split <;> exact ⟨rfl,rfl⟩

theorem tick_sends (own : t.vlSched s.schedplace = i) (waits : (s.vl i).queue (s.vl i).rmplace ≠ 0#32) :
    (tteClockTick t s).vl i = (s.vl i).tteSendData (t.maxQueue i) ∧
    (tteClockTick t s).sent i = s.sent i ++ [(s.vl i).frame] := by
  subst own
  unfold tteClockTick
  rw [if_pos waits]
  exact ⟨update_self ..,update_self ..⟩

theorem tick_keeps (nothing : t.vlSched s.schedplace = i → (s.vl i).queue (s.vl i).rmplace = 0#32) :
    (tteClockTick t s).vl i = s.vl i ∧ (tteClockTick t s).sent i = s.sent i := by
  unfold tteClockTick
  dsimp only
  split
  case isTrue waits =>
    have other : i ≠ t.vlSched s.schedplace := by
      rintro rfl
      exact waits (nothing rfl)
    exact ⟨update_of_ne other _ _,update_of_ne other _ _⟩
  case isFalse empty => exact ⟨rfl,rfl⟩
end Tick

theorem tick_valid (valid : Valid t s) (undisturbed : Undisturbed t s .tick) : Valid t (tteClockTick t s) := by
  intro i
  have link := valid i
  rw [(tick_phase t s).1,(tick_phase t s).2]
  by_cases sends : t.vlSched s.schedplace = i ∧ (s.vl i).queue (s.vl i).rmplace ≠ 0#32
  · obtain ⟨vl,sent⟩ := tick_sends t s sends.1 sends.2
    rw [vl,sent]
    refine link.tick (t.char i) (t.nonempty i) sends.2 fun f storing => ?_
    obtain ⟨c,calling,there⟩ := Option.bind_eq_some_iff.mp storing
    split at there
    case isFalse other => cases there
    case isTrue same =>
      rw [Option.some_inj,Prod.mk.injEq] at there
      rw [← same]
      exact undisturbed c calling there.2 (sends.1.trans same.symm)
  · obtain ⟨vl,sent⟩ := tick_keeps t s fun own => Classical.not_not.mp fun waits => sends ⟨own,waits⟩
    rw [vl,sent]
    exact link

theorem next_valid (valid : Valid t s) (admitted : ((system t).restrict (Undisturbed t)).admits s e) : Valid t (next t s e) := by
  cases e with
  | call link frame =>
    intro i
    have before := valid i
    have idle : s.call = none := Option.isNone_iff_eq_none.mp admitted.1.1
    rw [phase_none idle] at before
    cases before with
    | idle kept place =>
      by_cases own : i = link
      · subst own
        have calling : (next t s (.call i frame)).phase i = some (frame,.test) := phase_self (c := ⟨i,frame,.test⟩) rfl
        rw [calling]
        exact .test kept place admitted.1.2
      · have calling : (next t s (.call link frame)).phase i = none := phase_other (c := ⟨link,frame,.test⟩) rfl own
        rw [calling]
        exact .idle kept place
  | statement =>
    obtain ⟨c,calling⟩ := Option.isSome_iff_exists.mp admitted.1
    have run : next t s .statement = tteScheduleSend t s c := by
      unfold next
      rw [calling]
    rw [run]
    intro i
    rw [statement_sent]
    by_cases own : i = c.link
    · subst own
      exact statement_own valid calling
    · obtain ⟨vl,returned,phase⟩ := statement_other t s c own
      have before := valid i
      rw [phase_other calling own] at before
      rw [vl,returned,phase]
      exact before
  | tick => exact tick_valid valid admitted.2
  | integrate => exact valid

theorem reached_valid (path : Transition.Reached ((system t).restrict (Undisturbed t)) s) : Valid t s := by
  refine path.invariant ?_ fun _ _ valid admitted => next_valid valid admitted
  rintro s rfl
  exact initial_valid t

theorem next_grows (valid : Valid t s) (i : Fin links) (e : Event links) :
    s.returned i <+: (next t s e).returned i ∧ s.sent i <+: (next t s e).sent i ∧
    ((s.sent i).length+(ticked t i s e).length ≤ ((next t s e).sent i).length ∨
      (s.returned i).length ≤ (s.sent i).length) := by
  cases e with
  | call link frame | integrate => exact ⟨prefix_rfl,prefix_rfl,.inl le_rfl⟩
  | statement =>
    unfold next
    dsimp only
    split
    case h_2 => exact ⟨prefix_rfl,prefix_rfl,.inl le_rfl⟩
    case h_1 c calling =>
      rw [statement_sent]
      refine ⟨?_,prefix_rfl,.inl le_rfl⟩
      by_cases own : i = c.link
      · subst own
        unfold tteScheduleSend
        cases c.statement with
        | test | compare =>
          dsimp only
          split <;> exact prefix_rfl
        | storeAddress | storeSize | advance | reset | refuse => exact prefix_rfl
        | succeed =>
          dsimp only
          rw [update_self]
          exact prefix_append _ _
      · have same := (statement_other t s c own).2.1
        exact same ▸ prefix_rfl
  | tick =>
    obtain ⟨sized,kept⟩ := (valid i).kept
    change _ <+: (tteClockTick t s).returned i ∧ _ <+: (tteClockTick t s).sent i ∧
      (_ ≤ ((tteClockTick t s).sent i).length ∨ _)
    rw [(tick_phase t s).1]
    by_cases waits : (s.vl i).queue (s.vl i).rmplace = 0#32
    · rw [(tick_keeps t s fun _ => waits).2]
      refine ⟨prefix_rfl,prefix_rfl,.inr ?_⟩
      by_contra more
      exact (kept.waits (by rw [length_append]; omega)).1 waits
    · by_cases own : t.vlSched s.schedplace = i
      · rw [(tick_sends t s own waits).2,ticked,if_pos own]
        exact ⟨prefix_rfl,prefix_append _ _,.inl (by simp)⟩
      · rw [(tick_keeps t s fun same => absurd same own).2,ticked,if_neg own]
        exact ⟨prefix_rfl,prefix_rfl,.inl le_rfl⟩

theorem run_grows (valid : Valid t s) (i : Fin links) (events : List (Event links))
    (admitted : ((system t).restrict (Undisturbed t)).Admits s events)
    (enough : n ≤ (s.sent i).length+(((system t).restrict (Undisturbed t)).record (ticked t i) s events).length)
    (accepted : n ≤ (s.returned i).length) :
    Valid t (((system t).restrict (Undisturbed t)).run s events) ∧
    s.returned i <+: (((system t).restrict (Undisturbed t)).run s events).returned i ∧
    n ≤ ((((system t).restrict (Undisturbed t)).run s events).sent i).length := by
  induction events generalizing s with
  | nil => exact ⟨valid,prefix_rfl,enough⟩
  | cons e rest ih =>
    obtain ⟨returned,sent,moves⟩ := next_grows valid i e
    have fewer := returned.length_le
    have more := sent.length_le
    rw [Transition.System.record,length_append] at enough
    change n ≤ _+(_+(Transition.System.record _ _ (next t s e) rest).length) at enough
    obtain ⟨still,grown,served⟩ := ih (next_valid valid admitted.1) admitted.2
      (show n ≤ ((next t s e).sent i).length+_ by rcases moves with moves | moves <;> omega)
      (show n ≤ ((next t s e).returned i).length by omega)
    exact ⟨still,returned.trans grown,served⟩

-- Every accepted frame is sent once, in order and with its size, and is sent when the link has had as many ticks as
-- frames were waiting.
theorem frames_delivered (t : Setup links) (i : Fin links)
    (path : Transition.Reached ((system t).restrict (Undisturbed t)) s) :
    s.sent i <+: s.returned i ++ pending (s.phase i) ∧
    (∀ c, s.call = some c → c.link = i → (tteScheduleSend t s c).call = some {c with statement := .refuse} →
      c.statement = .test → (s.returned i).length = (s.sent i).length+t.maxQueue i) ∧
    ∀ events, ((system t).restrict (Undisturbed t)).Admits s events →
      (s.returned i).length ≤ (s.sent i).length+(((system t).restrict (Undisturbed t)).record (ticked t i) s events).length →
      s.returned i <+: (((system t).restrict (Undisturbed t)).run s events).sent i := by
  have valid := reached_valid path
  refine ⟨?_,?_,?_⟩
  · obtain ⟨sized,kept⟩ := (valid i).kept
    exact kept.order
  · rintro c calling rfl refused testing
    have link := valid c.link
    rw [phase_self calling,testing] at link
    cases link with
    | test kept place nonzero =>
      refine (kept.full (t.nonempty c.link) place).mp fun free => ?_
      unfold tteScheduleSend at refused
      simp [testing,free] at refused
  · intro events admitted enough
    obtain ⟨later,grown,served⟩ := run_grows valid i events admitted enough le_rfl
    obtain ⟨sized,kept⟩ := (later i).kept
    exact prefix_of_prefix_length_le (grown.trans (prefix_append _ _)) kept.order served

def single : Setup 1 where
  maxQueue _ := 1
  nonempty _ := le_refl 1
  char _ := le_of_ble_eq_true rfl
  vlSched _ := ⟨0,zero_lt_one⟩
  maxSched := 1

def whole : List (Event 1) :=
  [.integrate,.call ⟨0,zero_lt_one⟩ ⟨16#32,64#32⟩,.statement,.statement,.statement,.statement,.statement,.statement,.statement]

theorem frames_delivered_single :
    (((system single).restrict (Undisturbed single)).run initial whole).returned ⟨0,zero_lt_one⟩ = [⟨16#32,64#32⟩] ∧
    (((system single).restrict (Undisturbed single)).run initial whole).returned ⟨0,zero_lt_one⟩ <+:
      (((system single).restrict (Undisturbed single)).run (((system single).restrict (Undisturbed single)).run initial whole)
        [.tick]).sent ⟨0,zero_lt_one⟩ :=
  ⟨by decide,(frames_delivered single ⟨0,zero_lt_one⟩ (.run (.start rfl) whole (by decide))).2.2 [.tick] (by decide)
    (by decide)⟩

-- The tick comes between the statements that store the address and the size.
def divided : List (Event 1) :=
  [.integrate,.call ⟨0,zero_lt_one⟩ ⟨16#32,64#32⟩,.statement,.statement,.tick,.statement,.statement,.statement,.statement,
   .statement]

theorem frame_cut : ∃ s, Transition.Reached (system single) s ∧ s.returned ⟨0,zero_lt_one⟩ = [⟨16#32,64#32⟩] ∧
    s.sent ⟨0,zero_lt_one⟩ = [⟨16#32,0#32⟩] :=
  (Transition.Reached.start rfl).visits divided (by decide)
end Runs
end Patmos.Tte
