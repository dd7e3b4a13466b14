import Patmos.SpmPool
namespace Patmos.SpmPool
open Transition Register PortHistory Allocation

variable {c : Config}

section
variable (d : SpmPool c) (x : Cycle c)

def waiting (i : c.Core) : Option (OcpCoreMasterSignals 4) :=
  if (d.mReg i).cmd ≠ .idle ∧ (d.coreS i).resp = .null then some (d.mReg i) else none

def answering (i : c.Core) : Option (Word 4) := if (d.coreS i).resp = .dva then some (d.coreS i).data else none

abbrev Entry (c : Config) := Access c.Core (OcpCoreMasterSignals 4) (Word 4)

structure State (c : Config) where
  device : SpmPool c
  ports : Ports c.Core (OcpCoreMasterSignals 4) (Word 4)

-- The result is what the core sees in the next cycle.
def entry (i : c.Core) : Entry c := ⟨i,d.m x i,((d.next x).coreS i).data⟩

-- A held command that is answered in this cycle has been taken before.
def fresh (i : c.Core) : Bool := (x.m i).cmd ≠ .idle ∨ (d.coreS i).resp = .null

def controls (i : c.Core) : Bool := d.cur = i ∧ (select spmcntmax (d.m x i)).cmd ≠ .idle

def fetches (i : c.Core) : Bool :=
  fresh d x i && (d.m x i).cmd ≠ .idle &&
    if inside : spmsel (d.m x i).addr < c.spmcnt then (d.spms ⟨_,inside⟩).curReg = i else false

def controlled : List (Entry c) := (List.finRange (c.cores+1)).flatMap fun i => if controls d x i then [entry d x i] else []

def fetched : List (Entry c) := (List.finRange (c.cores+1)).flatMap fun i => if fetches d x i then [entry d x i] else []

def effects : List (Entry c) := controlled d x ++ fetched d x
end

section
variable (c : Config) (m : OcpCoreMasterSignals 4)

-- Schedule registers are addressed by indices below spmcnt.
def Indexed : Prop := m.cmd ≠ .idle → spmsel m.addr = spmcntmax → schedsel m.addr = spmcntmax ∨ schedsel m.addr < c.spmcnt

def Selects : Prop := spmsel m.addr = spmcntmax ∨ spmsel m.addr < c.spmcnt

def system : System (State c) (Cycle c) where
  start s := (∀ j i, s.device.spmscheds j i = false) ∧ (∀ i, s.device.respRegs i = .null) ∧ s.device.cur = 0 ∧
    (∀ j, (s.device.spms j).cmdReg = .idle) ∧ (∀ i, (s.device.mReg i).cmd = .idle ∧ Selects c (s.device.mReg i)) ∧
    s.ports = .empty
  admits s x := ∀ i, ((x.m i).cmd ≠ .idle → s.ports.Ready (answering s.device) i) ∧ Indexed c (x.m i)
  next s x := {
    device := s.device.next x
    ports := s.ports.next (SharedMemory.issued x.m) (effects s.device x) (answering s.device) }

def slotOf (data : Word 4) : Option (Fin c.spmcnt) := (List.finRange c.spmcnt).find? fun j => wordOf j = data

def isRequest : Prop := spmsel m.addr = spmcntmax ∧ schedsel m.addr = spmcntmax
end

instance (m : OcpCoreMasterSignals 4) : Decidable (isRequest m) := inferInstanceAs (Decidable (_ ∧ _))

-- What an access means for the ownership of the SPMs, as the cores see it.
def op (a : Entry c) : Option (Op c.Core (Fin c.spmcnt)) :=
  if isRequest a.command then (slotOf c a.result).map (.take a.port)
  else if spmsel a.command.addr = spmcntmax ∧ a.command.cmd = .wr then
    if inside : schedsel a.command.addr < c.spmcnt then some (.assign ⟨_,inside⟩ (coresOf a.command.data)) else none
  else none

def schedules (history : List (Entry c)) : Fin c.spmcnt → c.Core → Bool := after (fun _ _ => false) (history.filterMap op)

structure Answers (earlier : List (Entry c)) (a : Entry c) : Prop where
  granted : isRequest a.command → (∃ j, Empty (schedules earlier j)) → ∃ j, Empty (schedules earlier j) ∧ a.result = wordOf j
  refused : isRequest a.command → (¬∃ j, Empty (schedules earlier j)) → ∀ j : Fin c.spmcnt, a.result ≠ wordOf j
  read : ∀ j : Fin c.spmcnt, spmsel a.command.addr = spmcntmax → schedsel a.command.addr = j → a.command.cmd = .rd →
    coresOf a.result = schedules earlier j

structure Faithful (s : State c) : Prop where
  stored : s.device.spmscheds = schedules s.ports.history
  answers : Each Answers s.ports.history
  exclusive : ∀ earlier i j middle k later, s.ports.history.filterMap op = earlier ++ .take i j :: (middle ++ .take k j :: later) →
    ∃ owners, .assign j owners ∈ middle ∧ Empty owners
  orderly : s.ports.Orderly (waiting s.device) (answering s.device)

def Answered (m : System (State c) (Cycle c)) (s : State c) : Prop :=
  ∀ inputs, (∀ t, m.Follows s inputs t) → ∀ i, (waiting s.device i).isSome = true →
    ∃ t, (answering (m.states s inputs t).device i).isSome = true

-- No schedule is read and nothing is requested while all SPMs are taken. The addresses select an SPM that exists and,
-- for a command, has the core in its schedule. A core that is alone in it does not leave the address in place.
structure Proper (s : State c) (x : Cycle c) : Prop where
  selects : ∀ i, Selects c (x.m i)
  requests : (s.device.curio x).cmd ≠ .idle → schedsel (s.device.curio x).addr = spmcntmax → ∃ j, s.device.avails j = true
  writes : (s.device.curio x).cmd ≠ .idle → schedsel (s.device.curio x).addr ≠ spmcntmax → (s.device.curio x).cmd = .wr
  scheduled : ∀ i, (s.device.m x i).cmd ≠ .idle → ∀ j : Fin c.spmcnt, spmsel (s.device.m x i).addr = j →
    s.device.spmscheds j i = true
  leaves : ∀ i, (x.m i).cmd = .idle → (s.device.coreS i).resp ≠ .null → ∀ j : Fin c.spmcnt,
    spmsel (s.device.mReg i).addr = j → (s.device.spms j).curReg = i → spmsel (x.m i).addr ≠ j

structure Valid (s : State c) : Prop where
  turn : s.device.cur < c.cores+1
  selects : ∀ i, Selects c (s.device.mReg i)
  indexed : ∀ i, Indexed c (s.device.mReg i)
  rested : ∀ i : c.Core, s.device.respRegs i ≠ .null → s.device.cur ≠ i
  stored : s.device.spmscheds = schedules s.ports.history
  answers : Each Answers s.ports.history
  orderly : s.ports.Orderly (waiting s.device) (answering s.device)

section Ports
variable {s : State c} {d : SpmPool c} {x : Cycle c} {i : c.Core}

theorem spmcnt_lt (j : Fin c.spmcnt) : j.val < spmcntmax := j.isLt.trans_le c.few

theorem curio_turn (here : d.cur = i) : d.curio x = select spmcntmax (d.m x i) := by
  have inside : d.cur < c.cores+1 := here ▸ i.isLt
  have same : (⟨d.cur,inside⟩ : c.Core) = i := Fin.ext here
  rw [curio,dif_pos inside,same]

theorem select_here {o : OcpCoreMasterSignals 4} (here : spmsel o.addr = sel) : select sel o = o := by rw [select,if_pos here]

theorem select_cmd {o : OcpCoreMasterSignals 4} (busy : (select sel o).cmd ≠ .idle) : spmsel o.addr = sel ∧ o.cmd ≠ .idle := by
  by_cases here : spmsel o.addr = sel
  · rw [select_here here] at busy
    exact ⟨here,busy⟩
  · simp [select,here] at busy

theorem mReg_fresh (fresh : fresh d x i = true) : (d.next x).mReg i = d.m x i := by
  simp only [SpmPool.fresh,decide_eq_true_eq] at fresh
  by_cases issuing : (x.m i).cmd = .idle
  · simp [next,m,fresh.resolve_left (not_not.mpr issuing)]
  · simp [next,m,issuing]

theorem mReg_answered (old : fresh d x i = false) :
    (d.next x).mReg i = x.m i ∧ (x.m i).cmd = .idle ∧ d.m x i = d.mReg i ∧ (d.coreS i).resp ≠ .null := by
  simp only [SpmPool.fresh,decide_eq_false_iff_not,not_or,not_not] at old
  exact ⟨by simp [next,old],old.1,by simp [m,old.1],old.2⟩

theorem resp_control (here : spmsel ((d.next x).mReg i).addr = spmcntmax) :
    ((d.next x).coreS i).resp = if d.cur = i ∧ (d.curio x).cmd ≠ .idle then d.respCur x else .null := by
  rw [coreS,if_pos here]
  rfl

theorem resp_data (j : Fin c.spmcnt) (here : spmsel ((d.next x).mReg i).addr = j) :
    ((d.next x).coreS i).resp =
      if (d.spms j).curReg = i then if (select j (d.m x i)).cmd ≠ .idle then .dva else .null else .null := by
  have inside : spmsel ((d.next x).mReg i).addr < c.spmcnt := here ▸ j.isLt
  have same : (⟨_,inside⟩ : Fin c.spmcnt) = j := Fin.ext here
  rw [coreS,if_neg (by rw [here]; exact (spmcnt_lt j).ne),dif_pos inside,same]
  change (if (d.spms j).curReg = i then if (select j (d.m x (d.spms j).curReg)).cmd = .wr ∨
    (select j (d.m x (d.spms j).curReg)).cmd = .rd then OcpResp.dva else .null else .null) = _
  by_cases turn : (d.spms j).curReg = i
  · rw [if_pos turn,if_pos turn,turn]
    cases (select j (d.m x i)).cmd <;> rfl
  · rw [if_neg turn,if_neg turn]

theorem respCur_dva (proper : Proper s x) (busy : (s.device.curio x).cmd ≠ .idle) : s.device.respCur x = .dva := by
  unfold respCur
  by_cases request : schedsel (s.device.curio x).addr = spmcntmax
  · rw [if_pos request]
  · rw [if_neg request,if_pos (proper.writes busy request)]

theorem m_selects (valid : Valid s) (proper : Proper s x) : Selects c (s.device.m x i) := by
  unfold m
  split
  case isTrue => exact valid.selects i
  case isFalse => exact proper.selects i

theorem m_indexed (valid : Valid s) (admitted : (system c).admits s x) : Indexed c (s.device.m x i) := by
  unfold m
  split
  case isTrue => exact valid.indexed i
  case isFalse => exact (admitted i).2

theorem controls_fresh (valid : Valid s) (taking : controls s.device x i = true) : fresh s.device x i = true := by
  cases old : fresh s.device x i with
  | true => rfl
  | false =>
    obtain ⟨-,-,held,shown⟩ := mReg_answered old
    simp only [controls,decide_eq_true_eq] at taking
    have here := (select_cmd taking.2).1
    rw [held] at here
    rw [coreS,if_pos here] at shown
    exact absurd taking.1 (valid.rested i shown)

theorem stale_quiet (valid : Valid s) (old : fresh s.device x i = false) :
    controls s.device x i = false ∧ fetches s.device x i = false := by
  refine ⟨?_,by simp [fetches,old]⟩
  cases taking : controls s.device x i with
  | false => rfl
  | true => rw [controls_fresh valid taking] at old; cases old

theorem fetches_iff (j : Fin c.spmcnt) (here : spmsel (d.m x i).addr = j) (fresh : fresh d x i = true) :
    fetches d x i = true ↔ (d.m x i).cmd ≠ .idle ∧ (d.spms j).curReg = i := by
  have inside : spmsel (d.m x i).addr < c.spmcnt := here ▸ j.isLt
  have same : (⟨_,inside⟩ : Fin c.spmcnt) = j := Fin.ext here
  rw [fetches,dif_pos inside,same]
  simp [fresh]

theorem resp_next (valid : Valid s) (proper : Proper s x) : ((s.device.next x).coreS i).resp =
    if controls s.device x i = true ∨ fetches s.device x i = true then .dva else .null := by
  cases old : fresh s.device x i with
  | true =>
    have kept := mReg_fresh old
    rcases m_selects (i := i) valid proper with here | inside
    · have unfetched : fetches s.device x i = false := by
        have beyond : ¬spmsel (s.device.m x i).addr < c.spmcnt := by rw [here]; exact Nat.not_lt.mpr c.few
        simp [fetches,beyond]
      rw [resp_control (kept ▸ here),unfetched]
      by_cases turn : s.device.cur = i
      · have selected := curio_turn (x := x) turn
        by_cases busy : (s.device.curio x).cmd ≠ .idle
        · rw [if_pos ⟨turn,busy⟩,respCur_dva proper busy,if_pos (.inl (decide_eq_true ⟨turn,selected ▸ busy⟩))]
        · rw [selected] at *
          simp [controls,busy]
      · simp [controls,turn]
    · have uncontrolled : controls s.device x i = false := by
        simp only [controls,decide_eq_false_iff_not,not_and]
        intro _ busy
        have here := (select_cmd busy).1
        have few := c.few
        omega
      rw [resp_data ⟨_,inside⟩ (by rw [kept]),uncontrolled]
      have taken := fetches_iff ⟨_,inside⟩ rfl old
      rw [select_here rfl]
      by_cases turn : (s.device.spms ⟨_,inside⟩).curReg = i <;> by_cases busy : (s.device.m x i).cmd = .idle <;>
        simp [taken,busy]
  | false =>
    obtain ⟨moved,idle,held,shown⟩ := mReg_answered old
    obtain ⟨uncontrolled,unfetched⟩ := stale_quiet valid old
    rw [uncontrolled,unfetched,if_neg (by decide)]
    rcases proper.selects i with here | inside
    · rw [resp_control (moved ▸ here)]
      refine if_neg fun both => ?_
      rw [curio_turn both.1] at both
      rw [controls,decide_eq_false_iff_not] at uncontrolled
      exact uncontrolled both
    · rw [resp_data ⟨_,inside⟩ (by rw [moved])]
      by_cases turn : (s.device.spms ⟨_,inside⟩).curReg = i
      · rw [if_pos turn]
        refine if_neg fun busy => ?_
        have here := (select_cmd busy).1
        rw [held] at here
        exact proper.leaves i idle shown ⟨_,inside⟩ here turn rfl
      · rw [if_neg turn]

theorem controls_here (taking : controls d x i = true) : d.cur = i ∧ spmsel (d.m x i).addr = spmcntmax ∧ (d.m x i).cmd ≠ .idle := by
  simp only [controls,decide_eq_true_eq] at taking
  exact ⟨taking.1,select_cmd taking.2⟩

theorem fetches_here (taking : fetches d x i = true) :
    fresh d x i = true ∧ spmsel (d.m x i).addr < c.spmcnt ∧ (d.m x i).cmd ≠ .idle := by
  simp only [fetches,Bool.and_eq_true,decide_eq_true_eq] at taking
  refine ⟨taking.1.1,?_,taking.1.2⟩
  by_contra beyond
  simp [beyond] at taking

theorem ofPort_effects (i : c.Core) : ofPort (effects d x) i =
    if controls d x i = true ∨ fetches d x i = true then [entry d x i] else [] := by
  have own (present : c.Core → Bool) (j : c.Core) (a : Entry c) (member : a ∈ if present j then [entry d x j] else []) :
      a.port = j := by
    split at member
    · cases List.mem_singleton.mp member
      rfl
    · cases member
  rw [effects,ofPort_append,controlled,fetched,
    ofPort_flatMap _ _ (own (controls d x)) (List.nodup_finRange _) (List.mem_finRange i),
    ofPort_flatMap _ _ (own (fetches d x)) (List.nodup_finRange _) (List.mem_finRange i)]
  cases control : controls d x i with
  | false => cases fetches d x i <;> rfl
  | true =>
    have unfetched : fetches d x i = false := by
      cases fetching : fetches d x i with
      | false => rfl
      | true =>
        have inside := (fetches_here fetching).2.1
        rw [(controls_here control).2.1] at inside
        exact absurd c.few inside.not_ge
    rw [unfetched]
    rfl

theorem orderly_step (valid : Valid s) (admitted : (system c).admits s x) (proper : Proper s x) :
    ((system c).next s x).ports.Orderly (waiting ((system c).next s x).device) (answering ((system c).next s x).device) := by
  have shown (i : c.Core) := resp_next (i := i) valid proper
  refine valid.orderly.next (fun i => ?_) (fun i => ?_)
  · change _ = _ ++ (waiting (s.device.next x) i).toList
    rw [ofPort_effects]
    cases old : fresh s.device x i with
    | false =>
      obtain ⟨moved,idle,-,answered⟩ := mReg_answered old
      obtain ⟨uncontrolled,unfetched⟩ := stale_quiet valid old
      simp [waiting,SharedMemory.issued,moved,idle,answered,uncontrolled,unfetched]
    | true =>
      have kept := mReg_fresh old
      have pending : (waiting s.device i).toList ++ (SharedMemory.issued x.m i).toList =
          if (s.device.m x i).cmd = .idle then [] else [s.device.m x i] := by
        by_cases idle : (x.m i).cmd = .idle
        · have null : (s.device.coreS i).resp = .null := by
            simp only [SpmPool.fresh,decide_eq_true_eq] at old
            exact old.resolve_left (not_not.mpr idle)
          by_cases held : (s.device.mReg i).cmd = .idle <;> simp [waiting,SharedMemory.issued,m,idle,null,held]
        · have rested := valid.orderly.ready ((admitted i).1 idle)
          simp [rested,SharedMemory.issued,m,idle]
      rw [pending]
      by_cases taken : controls s.device x i = true ∨ fetches s.device x i = true
      · have busy : (s.device.m x i).cmd ≠ .idle := taken.elim (fun t => (controls_here t).2.2) (fun t => (fetches_here t).2.2)
        have later : waiting (s.device.next x) i = none := by simp [waiting,shown i,taken]
        rw [if_neg busy,if_pos taken,later]
        rfl
      · have later : waiting (s.device.next x) i = if (s.device.m x i).cmd = .idle then none else some (s.device.m x i) := by
          simp [waiting,shown i,taken,kept]
        rw [later]
        split <;> rfl
  · change _ = (answering (s.device.next x) i).toList
    rw [ofPort_effects]
    by_cases taken : controls s.device x i = true ∨ fetches s.device x i = true
    · simp [answering,shown i,taken,entry]
    · simp [answering,shown i,taken]
end Ports

section Schedules
variable {s : State c} {x : Cycle c}

theorem wordOf_injective (left right : Fin c.spmcnt) (same : wordOf left = wordOf right) : left = right := by
  have lowest := congrArg BitVec.toNat (congrFun same ⟨0,by decide⟩)
  have first := spmcnt_lt left
  have second := spmcnt_lt right
  simp only [wordOf,BitVec.toNat_ofNat] at lowest
  unfold spmcntmax at first second
  exact Fin.ext (by omega)

theorem slotOf_wordOf (j : Fin c.spmcnt) : slotOf c (wordOf j) = some j := by
  unfold slotOf
  cases found : (List.finRange c.spmcnt).find? fun k : Fin c.spmcnt => wordOf k = wordOf j with
  | none => simpa using List.find?_eq_none.mp found j (List.mem_finRange j)
  | some k =>
    have same : wordOf k = wordOf j := by simpa using List.find?_some found
    rw [wordOf_injective k j same]

theorem slotOf_some (found : slotOf c data = some j) : data = wordOf j := by
  have same : wordOf j = data := by simpa using List.find?_some found
  exact same.symm

theorem avails_iff (d : SpmPool c) (j : Fin c.spmcnt) : d.avails j = true ↔ Empty (d.spmscheds j) := decide_eq_true_iff

theorem controlled_turn (turn : s.device.cur < c.cores+1) : controlled s.device x =
    if (s.device.curio x).cmd ≠ .idle then [entry s.device x ⟨_,turn⟩] else [] := by
  rw [controlled,CompareAndSwap.flatMap_single _ _ (List.nodup_finRange _) (List.mem_finRange ⟨_,turn⟩) fun j other => ?_]
  · rw [curio_turn (i := ⟨_,turn⟩) rfl]
    simp [controls]
  · refine if_neg fun taking => other (Fin.ext ?_)
    exact (controls_here taking).1.symm

theorem fetched_op (a : Entry c) (member : a ∈ fetched s.device x) : spmsel a.command.addr ≠ spmcntmax := by
  obtain ⟨i,-,member⟩ := List.mem_flatMap.mp member
  split at member
  case isTrue taking =>
    cases List.mem_singleton.mp member
    have inside := (fetches_here taking).2.1
    have few := c.few
    change spmsel (s.device.m x i).addr ≠ spmcntmax
    omega
  case isFalse => cases member

theorem fetched_ops : (fetched s.device x).filterMap op = [] :=
  List.filterMap_eq_nil_iff.mpr fun a member => by
    have apart := fetched_op a member
    simp [op,isRequest,apart]

structure Controlling (s : State c) (x : Cycle c) (i : c.Core) : Prop where
  here : s.device.cur = i
  command : s.device.curio x = s.device.m x i
  selected : spmsel (s.device.m x i).addr = spmcntmax
  result : (entry s.device x i).result = s.device.dataNext x i

theorem controlling (valid : Valid s) (busy : (s.device.curio x).cmd ≠ .idle) : Controlling s x ⟨_,valid.turn⟩ := by
  have command := curio_turn (d := s.device) (x := x) (i := ⟨_,valid.turn⟩) rfl
  have taking : controls s.device x ⟨_,valid.turn⟩ = true := decide_eq_true ⟨rfl,command ▸ busy⟩
  have selected := (controls_here taking).2.1
  have kept := mReg_fresh (controls_fresh valid taking)
  refine ⟨rfl,by rw [command,select_here selected],selected,?_⟩
  change ((s.device.next x).coreS ⟨_,valid.turn⟩).data = _
  rw [coreS,if_pos (kept ▸ selected)]
  rfl

theorem nxtavail_some (d : SpmPool c) (free : ∃ j, d.avails j = true) : ∃ j, d.nxtavail = some j ∧ Empty (d.spmscheds j) := by
  cases found : d.nxtavail with
  | none =>
    obtain ⟨j,free⟩ := free
    have none := List.find?_eq_none.mp found j (List.mem_finRange j)
    exact absurd free none
  | some j => exact ⟨j,rfl,(avails_iff d j).mp (List.find?_some found)⟩

theorem request_result (valid : Valid s) (proper : Proper s x) (busy : (s.device.curio x).cmd ≠ .idle)
    (request : schedsel (s.device.curio x).addr = spmcntmax) :
    ∃ j, s.device.nxtavail = some j ∧ Empty (s.device.spmscheds j) ∧ (entry s.device x ⟨_,valid.turn⟩).result = wordOf j := by
  obtain ⟨j,found,free⟩ := nxtavail_some s.device (proper.requests busy request)
  refine ⟨j,found,free,?_⟩
  rw [(controlling valid busy).result,dataNext,if_pos ⟨rfl,busy,request⟩,found]

theorem stored_step (valid : Valid s) (admitted : (system c).admits s x) (proper : Proper s x) :
    s.device.schedNext x = schedules (s.ports.history ++ effects s.device x) := by
  rw [effects,schedules,List.filterMap_append,List.filterMap_append,fetched_ops,List.append_nil,after_append,
    show after (fun _ _ => false) (s.ports.history.filterMap op) = s.device.spmscheds from valid.stored.symm,
    controlled_turn valid.turn]
  by_cases busy : (s.device.curio x).cmd = .idle
  · funext j
    simp [schedNext,busy,after]
  rw [if_pos busy]
  have control := controlling valid busy
  have command := control.command
  by_cases request : schedsel (s.device.curio x).addr = spmcntmax
  · obtain ⟨j,found,-,result⟩ := request_result valid proper busy request
    have operation : op (entry s.device x ⟨_,valid.turn⟩) = some (.take ⟨_,valid.turn⟩ j) := by
      have asks : isRequest (entry s.device x ⟨_,valid.turn⟩).command :=
        ⟨control.selected,show schedsel (s.device.m x ⟨_,valid.turn⟩).addr = _ from command ▸ request⟩
      rw [op,if_pos asks,result,slotOf_wordOf]
      rfl
    funext k
    simp only [schedNext,if_neg busy,if_pos request,found,List.filterMap_cons,operation,List.filterMap_nil,after,List.foldl_cons,
      List.foldl_nil,apply,Option.some.injEq]
    by_cases here : k = j
    · subst here
      funext i
      simp [only,Fin.ext_iff]
    · rw [if_neg (Ne.symm here),Function.update_of_ne here]
  · have write := proper.writes busy request
    have inside : schedsel (s.device.curio x).addr < c.spmcnt := by
      have indexed := m_indexed (i := ⟨_,valid.turn⟩) valid admitted (command ▸ busy) control.selected
      rw [← command] at indexed
      exact indexed.resolve_left request
    have operation : op (entry s.device x ⟨_,valid.turn⟩) =
        some (.assign ⟨_,inside⟩ (coresOf (s.device.curio x).data)) := by
      have unrequested : ¬isRequest (entry s.device x ⟨_,valid.turn⟩).command := fun asks => request (command ▸ asks.2)
      rw [op,if_neg unrequested]
      simp only [entry,← command,write,and_true,dif_pos inside]
      rw [if_pos (by rw [command]; exact control.selected)]
    funext k
    rw [schedNext,if_neg busy,if_neg request,write]
    simp only [true_and,List.filterMap_cons,operation,List.filterMap_nil,after,List.foldl_cons,List.foldl_nil,apply]
    by_cases here : schedsel (s.device.curio x).addr = k
    · have same : (⟨_,inside⟩ : Fin c.spmcnt) = k := Fin.ext here
      rw [if_pos here,same,Function.update_self]
    · rw [if_neg here,Function.update_of_ne fun same => here (congrArg Fin.val same).symm]

theorem answers_step (valid : Valid s) (proper : Proper s x) : Each Answers (s.ports.history ++ effects s.device x) := by
  rw [effects,← List.append_assoc]
  refine Each.append ?_ _ fun a member earlier => ?_
  · rw [controlled_turn valid.turn]
    split
    case isTrue busy =>
      have control := controlling valid busy
      have same := valid.stored
      refine Each.snoc valid.answers ⟨fun request _ => ?_,fun request full => ?_,fun j _ index read => ?_⟩
      · obtain ⟨j,-,free,result⟩ := request_result valid proper busy (control.command ▸ request.2)
        exact ⟨j,same ▸ free,result⟩
      · obtain ⟨j,-,free,-⟩ := request_result valid proper busy (control.command ▸ request.2)
        exact absurd ⟨j,same ▸ free⟩ full
      · change schedsel (s.device.m x _).addr = j at index
        change (s.device.m x _).cmd = .rd at read
        rw [← control.command] at index read
        have write := proper.writes busy (by rw [index]; exact (spmcnt_lt j).ne)
        rw [write] at read
        cases read
    case isFalse =>
      rw [List.append_nil]
      exact valid.answers
  · have apart := fetched_op a member
    exact ⟨fun request => absurd request.1 apart,fun request => absurd request.1 apart,fun _ here => absurd here apart⟩

theorem answers_sound {history : List (Entry c)} (answers : Each Answers history) :
    Sound (fun _ _ => false) (history.filterMap op) := by
  intro earlier i j later split
  obtain ⟨before,after,rfl,rfl,taken⟩ := List.filterMap_eq_append_iff.mp split
  obtain ⟨skipped,a,rest,rfl,none,taking,-⟩ := List.filterMap_eq_cons_iff.mp taken
  have given := answers (before ++ skipped) a rest (by simp)
  have same : schedules (before ++ skipped) = Allocation.after (fun _ _ => false) (before.filterMap op) := by
    rw [schedules,List.filterMap_append,List.filterMap_eq_nil_iff.mpr none,List.append_nil]
  unfold op at taking
  split at taking
  case isTrue request =>
    obtain ⟨slot,found,took⟩ := Option.map_eq_some_iff.mp taking
    cases took
    have result := slotOf_some found
    by_cases free : ∃ j, Empty (schedules (before ++ skipped) j)
    · obtain ⟨k,empty,given⟩ := given.granted request free
      rw [wordOf_injective j k (result.symm.trans given),← same]
      exact empty
    · exact absurd result (given.refused request free j)
  case isFalse =>
    split at taking
    · split at taking <;> cases taking
    · cases taking
end Schedules
end Patmos.SpmPool
