import Patmos.OcpSignals
import Patmos.OrReduction
import Patmos.RegisterWidth
import Patmos.Transactions
import Patmos.TransitionSystem
namespace Patmos.TransactionalMemory
open Transition Register Transactions Function List

structure Config where
  memsize : Nat
  bufsize : Nat
  pipeline : Bool

def Config.memaddrwidth (g : Config) : Nat := log2Up g.memsize

inductive CoreState where
  | sIdle
  | sRead
  | sPreSharedRead
  | sSharedRead
  | sPreCommit
  | sCommit
  deriving DecidableEq, Repr

structure Buffer where
  bufaddrs : Nat → Nat
  bufrds : Nat → Bool
  bufwrs : Nat → Bool
  bufnxt : Nat
  bufmem : Nat → Word 4

structure Core where
  ioM : OcpCoreMasterSignals 4
  memrdaddrReg : Nat
  buf : Buffer
  bufmemrdaddrReg : Nat
  bufconflict : Bool
  sReg : CoreState
  slaveReg : OcpSlaveSignals 4
  overflowReg : Bool

-- What the core that has the turn puts on the shared wires.
structure Turn where
  sharedmemwr : Bool
  sharedmemwrfin : Bool
  sharedmemwraddr : Nat
  sharedmemwrdata : Word 4
  bufwr : Bool

def Turn.writes (b : Turn) : Bool := b.sharedmemwr && b.bufwr

def minusOne : Word 4 := fun _ => 255#8
def zero : Word 4 := fun _ => 0#8

namespace Buffer
section
variable (g : Config) (b : Buffer) (addr : Nat) (data : Word 4)

def bufmatches (bufaddr j : Nat) : Bool := b.bufaddrs j = bufaddr && (b.bufrds j || b.bufwrs j)

-- The numbers of all matching entries are joined by an or.
def bufmatch (bufaddr : Nat) : Nat :=
  ((range g.bufsize).map fun j => if b.bufmatches bufaddr j then j else 0).foldl (· ||| ·) 0

def bufmatched (bufaddr : Nat) : Bool := (range g.bufsize).any (b.bufmatches bufaddr)

def conflicts (sharedmemwraddr : Nat) : Bool :=
  (range g.bufsize).any fun j => b.bufrds j && sharedmemwraddr = b.bufaddrs j

def overwrite (j : Nat) (data : Word 4) : Buffer :=
  {b with bufmem := update b.bufmem j data,bufwrs := update b.bufwrs j true}

def addWrite : Buffer where
  bufaddrs := update b.bufaddrs b.bufnxt (addr % 2^g.memaddrwidth)
  bufrds := b.bufrds
  bufwrs := update b.bufwrs b.bufnxt true
  bufnxt := (b.bufnxt+1) % (g.bufsize+1)
  bufmem := update b.bufmem b.bufnxt data

def addRead : Buffer where
  bufaddrs := update b.bufaddrs b.bufnxt addr
  bufrds := update b.bufrds b.bufnxt true
  bufwrs := b.bufwrs
  bufnxt := (b.bufnxt+1) % (g.bufsize+1)
  bufmem := update b.bufmem b.bufnxt data

def clear : Buffer := {b with bufrds := fun _ => false,bufwrs := fun _ => false,bufnxt := 0}
end
end Buffer

namespace Core
section
variable (g : Config) (c : Core) (mine : Bool) (b : Turn) (sharedmemrddata : Word 4) (input : OcpCoreMasterSignals 4)

def turn : Turn where
  sharedmemwr := c.sReg = .sCommit && !c.bufconflict
  sharedmemwrfin := c.bufmemrdaddrReg = c.buf.bufnxt
  sharedmemwraddr := c.buf.bufaddrs c.bufmemrdaddrReg
  sharedmemwrdata := c.buf.bufmem c.bufmemrdaddrReg
  bufwr := c.buf.bufwrs c.bufmemrdaddrReg

def request : OcpCoreMasterSignals 4 := if g.pipeline then c.ioM else input

def bufaddr (m : OcpCoreMasterSignals 4) : Nat := m.addr/4 % 2^(g.memaddrwidth+1)

-- A read of this address asks for a commit.
def commitAddr (m : OcpCoreMasterSignals 4) : Bool := m.addr/4 % 2^14 = 0x3FFF

-- The assignments that hold unless the state says otherwise.
def defaults : Core :=
  {c with
    ioM := input
    bufmemrdaddrReg := 0
    bufconflict := c.bufconflict || (b.writes && !mine && c.buf.conflicts g b.sharedmemwraddr)
    slaveReg := ⟨.null,sharedmemrddata⟩}

def respond (data : Word 4) : Core := {c with slaveReg := ⟨.dva,data⟩}

def clear (c : Core) : Core := {c with overflowReg := false,buf := c.buf.clear,bufconflict := false}

def refuses : Bool := c.buf.bufnxt = 0 || c.bufconflict || c.overflowReg

def write (c d : Core) (m : OcpCoreMasterSignals 4) : Core :=
  let addr := bufaddr g m
  if c.buf.bufmatched g addr then {d with buf := c.buf.overwrite (c.buf.bufmatch g addr) m.data}
  else if c.buf.bufnxt = g.bufsize then {d with overflowReg := true}
  else {d with buf := c.buf.addWrite g addr m.data}

def read (c d : Core) (m : OcpCoreMasterSignals 4) : Core :=
  let addr := bufaddr g m
  if c.buf.bufmatched g addr then {d with bufmemrdaddrReg := c.buf.bufmatch g addr,sReg := .sRead}
  else if c.buf.bufnxt = g.bufsize then {d with overflowReg := true}
  else {d with memrdaddrReg := addr % 2^g.memaddrwidth,sReg := .sPreSharedRead}

def commit (c d : Core) : Core := if c.refuses then d.clear.respond minusOne else {d with sReg := .sCommit}

-- One step of the transfer at the end of a transaction.
def transfer (c d : Core) : Core :=
  let d := {d with bufmemrdaddrReg := (c.bufmemrdaddrReg+1) % 2^log2Up g.bufsize}
  if c.bufmemrdaddrReg = c.buf.bufnxt ∨ c.bufconflict then
    {(d.clear.respond (if c.bufconflict then minusOne else zero)) with sReg := .sIdle}
  else d

def next : Core :=
  let d := c.defaults g mine b sharedmemrddata input
  let m := c.request g input
  match c.sReg with
  | .sIdle =>
    match m.cmd with
    | .wr => write g c (d.respond sharedmemrddata) m
    | .rd => if commitAddr m then commit c d else read g c d m
    | .idle => d
  | .sRead => {d.respond (c.buf.bufmem c.bufmemrdaddrReg) with sReg := .sIdle}
  | .sPreSharedRead => if mine then {d with sReg := .sSharedRead} else d
  | .sSharedRead =>
    {d.respond sharedmemrddata with buf := c.buf.addRead g c.memrdaddrReg sharedmemrddata,sReg := .sIdle}
  | .sPreCommit => d
  | .sCommit => if mine || c.bufconflict then transfer g c d else d
end
end Core

structure Memory (cores : Nat) where
  corecur : Fin (cores+1)
  sharedmem : Nat → Word 4
  sharedmemrdaddrReg : Nat
  core : Fin (cores+1) → Core

namespace Memory
def inc (i : Fin (cores+1)) : Fin (cores+1) :=
  if more : i.val+1 < cores+1 then ⟨i.val+1,more⟩ else ⟨0,Nat.succ_pos _⟩

def turn (s : Memory cores) : Turn := (s.core s.corecur).turn

def sharedmemrddata (s : Memory cores) : Word 4 := s.sharedmem s.sharedmemrdaddrReg

def next (g : Config) (s : Memory cores) (input : Fin (cores+1) → OcpCoreMasterSignals 4) : Memory cores where
  corecur := if s.turn.sharedmemwr && !s.turn.sharedmemwrfin then s.corecur else inc s.corecur
  sharedmem :=
    if s.turn.writes then update s.sharedmem s.turn.sharedmemwraddr s.turn.sharedmemwrdata else s.sharedmem
  sharedmemrdaddrReg := (s.core s.corecur).memrdaddrReg
  core i := (s.core i).next g (i = s.corecur) s.turn s.sharedmemrddata (input i)
end Memory

-- What a core has done since its transaction began: its operations with the values returned, the addresses it read in
-- the shared memory, and whether the commit of another core has written one of these afterwards.
structure History where
  ops : List (Op Nat (Word 4))
  shared : List Nat
  overtaken : Bool
  asked : Nat

def History.fresh (h : History) : History := ⟨[],[],false,h.asked⟩

def History.next (g : Config) (h : History) (c c' : Core) (m : OcpCoreMasterSignals 4) : History :=
  match c.sReg with
  | .sIdle =>
    match m.cmd with
    | .wr => {h with ops := h.ops ++ [.write (Core.bufaddr g m) m.data]}
    | .rd =>
      if Core.commitAddr m then if c'.sReg = .sCommit then h else h.fresh else {h with asked := Core.bufaddr g m}
    | .idle => h
  | .sRead => {h with ops := h.ops ++ [.read h.asked c'.slaveReg.data]}
  | .sPreSharedRead => h
  | .sSharedRead => {h with ops := h.ops ++ [.read h.asked c'.slaveReg.data],shared := h.shared ++ [h.asked]}
  | .sPreCommit => h
  | .sCommit => if c'.sReg = .sCommit then h else h.fresh

def History.observe (h : History) (mine : Bool) (b : Turn) : History :=
  {h with overtaken := h.overtaken || (b.writes && !mine && h.shared.contains b.sharedmemwraddr)}

structure Transaction (cores : Nat) where
  core : Fin (cores+1)
  ops : List (Op Nat (Word 4))
  overtaken : Bool

structure State (cores : Nat) where
  memory : Memory cores
  history : Fin (cores+1) → History
  committed : List (Transaction cores)
  initial : Nat → Word 4

-- The response to a commit is zero.
def Core.succeeds (c c' : Core) : Bool := c.sReg = .sCommit && c'.slaveReg.resp = .dva && c'.slaveReg.data = zero

def system (cores : Nat) (g : Config) : System (State cores) (Fin (cores+1) → OcpCoreMasterSignals 4) where
  start s := s.committed = [] ∧ s.initial = s.memory.sharedmem ∧ s.memory.corecur.val = 0 ∧ ∀ i,
    (s.memory.core i).sReg = .sIdle ∧ (s.memory.core i).bufconflict = false ∧ (s.memory.core i).overflowReg = false ∧
    (s.memory.core i).buf.bufnxt = 0 ∧ (∀ j, (s.memory.core i).buf.bufrds j = false) ∧
    (∀ j, (s.memory.core i).buf.bufwrs j = false) ∧ s.history i = ⟨[],[],false,0⟩
  admits _ _ := True
  next s input :=
    let memory := s.memory.next g input
    let i := s.memory.corecur
    { memory
      history := fun i => ((s.history i).next g (s.memory.core i) (memory.core i)
        ((s.memory.core i).request g (input i))).observe (i = s.memory.corecur) s.memory.turn
      committed := s.committed ++ if (s.memory.core i).succeeds (memory.core i) then
        [⟨i,(s.history i).ops,(s.history i).overtaken⟩] else []
      initial := s.initial }

-- A buffer whose entries are in use up to the next free one, for different addresses of the memory.
structure Fits (g : Config) (b : Buffer) : Prop where
  bounded : b.bufnxt ≤ g.bufsize
  inUse : ∀ j < b.bufnxt, b.bufrds j = true ∨ b.bufwrs j = true
  unusedRead : ∀ j, b.bufnxt ≤ j → b.bufrds j = false
  unusedWrite : ∀ j, b.bufnxt ≤ j → b.bufwrs j = false
  distinct : ∀ {j k}, j < b.bufnxt → k < b.bufnxt → b.bufaddrs j = b.bufaddrs k → j = k

def Free (b : Buffer) (addr : Nat) : Prop := ∀ j < b.bufnxt, b.bufaddrs j ≠ addr

section Matching
variable {g : Config} {b : Buffer}

theorem Fits.matches_iff (fits : Fits g b) : b.bufmatches addr j = true ↔ j < b.bufnxt ∧ b.bufaddrs j = addr := by
  unfold Buffer.bufmatches
  rw [Bool.and_eq_true,Bool.or_eq_true,decide_eq_true_iff]
  constructor
  · rintro ⟨here,used⟩
    refine ⟨?_,here⟩
    by_contra outside
    have beyond := Nat.le_of_not_lt outside
    rcases used with read | written
    · cases (fits.unusedRead j beyond).symm.trans read
    · cases (fits.unusedWrite j beyond).symm.trans written
  · rintro ⟨inside,here⟩
    exact ⟨here,fits.inUse j inside⟩

theorem Fits.matched_iff (fits : Fits g b) : b.bufmatched g addr = true ↔ ∃ j < b.bufnxt, b.bufaddrs j = addr := by
  unfold Buffer.bufmatched
  rw [any_eq_true]
  constructor
  · rintro ⟨j,_,found⟩
    exact ⟨j,fits.matches_iff.mp found⟩
  · rintro ⟨j,inside,here⟩
    exact ⟨j,mem_range.mpr (inside.trans_le fits.bounded),fits.matches_iff.mpr ⟨inside,here⟩⟩

theorem Fits.unmatched (fits : Fits g b) (unmatched : b.bufmatched g addr = false) : Free b addr := by
  intro j inside here
  cases unmatched.symm.trans (fits.matched_iff.mpr ⟨j,inside,here⟩)

theorem Fits.bufmatch_eq (fits : Fits g b) (inside : j < b.bufnxt) (here : b.bufaddrs j = addr) : b.bufmatch g addr = j := by
  have joins : OrReduction.Joins (fun x y : Nat => x ||| y) 0 := ⟨Nat.zero_or,Nat.or_zero,Nat.or_self⟩
  apply OrReduction.foldl_single joins
  · intro x member
    obtain ⟨k,_,rfl⟩ := mem_map.mp member
    by_cases found : b.bufmatches addr k = true
    · obtain ⟨also,same⟩ := fits.matches_iff.mp found
      rw [if_pos found]
      exact .inr (fits.distinct also inside (same.trans here.symm))
    · rw [if_neg found]
      exact .inl rfl
  · refine .inr ⟨rfl,mem_map.mpr ⟨j,mem_range.mpr (inside.trans_le fits.bounded),?_⟩⟩
    exact if_pos (fits.matches_iff.mpr ⟨inside,here⟩)

theorem Fits.conflicts_read (fits : Fits g b) (inside : j < b.bufnxt) (read : b.bufrds j = true) :
    b.conflicts g (b.bufaddrs j) = true := by
  apply any_eq_true.mpr
  exact ⟨j,mem_range.mpr (inside.trans_le fits.bounded),by simp [read]⟩

theorem Buffer.clear_empty (b : Buffer) (empty : b.bufnxt = 0) (unread : ∀ j, b.bufrds j = false)
    (unwritten : ∀ j, b.bufwrs j = false) : b.clear = b := by
  obtain ⟨addrs,reads,writes,next,mem⟩ := b
  obtain rfl : reads = fun _ => false := funext unread
  obtain rfl : writes = fun _ => false := funext unwritten
  obtain rfl : next = 0 := empty
  rfl

theorem Fits.clear (g : Config) (b : Buffer) : Fits g b.clear where
  bounded := Nat.zero_le _
  inUse j inside := absurd inside (Nat.not_lt_zero j)
  unusedRead _ _ := rfl
  unusedWrite _ _ := rfl
  distinct inside := absurd inside (Nat.not_lt_zero _)

theorem Fits.overwrite (fits : Fits g b) (inside : j < b.bufnxt) (data : Word 4) : Fits g (b.overwrite j data) where
  bounded := fits.bounded
  inUse k within := by
    rcases fits.inUse k within with read | written
    · exact .inl read
    · by_cases same : k = j
      · exact .inr (by simp [Buffer.overwrite,same])
      · exact .inr (by simpa [Buffer.overwrite,same] using written)
  unusedRead := fits.unusedRead
  unusedWrite k beyond := by
    have other : k ≠ j := by
      rintro rfl
      exact absurd inside beyond.not_gt
    exact (update_of_ne other true b.bufwrs).trans (fits.unusedWrite k beyond)
  distinct := fits.distinct

theorem bufnxt_inc (room : b.bufnxt < g.bufsize) : (b.bufnxt+1) % (g.bufsize+1) = b.bufnxt+1 :=
  Nat.mod_eq_of_lt (Nat.succ_lt_succ room)

-- An address that an entry is added for. One entry is added behind those in use.
structure Adds (b b' : Buffer) (addr : Nat) (v : Word 4) (rd wr : Bool) : Prop where
  grown : b'.bufnxt = b.bufnxt+1
  old : ∀ {j}, j < b.bufnxt →
    b'.bufaddrs j = b.bufaddrs j ∧ b'.bufrds j = b.bufrds j ∧ b'.bufwrs j = b.bufwrs j ∧ b'.bufmem j = b.bufmem j
  new : b'.bufaddrs b.bufnxt = addr ∧ b'.bufrds b.bufnxt = rd ∧ b'.bufwrs b.bufnxt = wr ∧ b'.bufmem b.bufnxt = v
  unused : ∀ {j}, b.bufnxt < j → b'.bufrds j = b.bufrds j ∧ b'.bufwrs j = b.bufwrs j

theorem Fits.addWrite (fits : Fits g b) (room : b.bufnxt < g.bufsize) (small : addr < 2^g.memaddrwidth) (data : Word 4) :
    Adds b (b.addWrite g addr data) addr data false true where
  grown := bufnxt_inc room
  old inside := by simp [Buffer.addWrite,inside.ne]
  new := by simp [Buffer.addWrite,Nat.mod_eq_of_lt small,fits.unusedRead b.bufnxt le_rfl]
  unused beyond := by simp [Buffer.addWrite,beyond.ne']

theorem Fits.addRead (fits : Fits g b) (room : b.bufnxt < g.bufsize) (addr : Nat) (data : Word 4) :
    Adds b (b.addRead g addr data) addr data true false where
  grown := bufnxt_inc room
  old inside := by simp [Buffer.addRead,inside.ne]
  new := by simp [Buffer.addRead,fits.unusedWrite b.bufnxt le_rfl]
  unused beyond := by simp [Buffer.addRead,beyond.ne']

theorem Adds.cases (adds : Adds b b' addr v rd wr) (inside : j < b'.bufnxt) : j < b.bufnxt ∨ j = b.bufnxt :=
  Nat.lt_succ_iff_lt_or_eq.mp (Nat.lt_of_lt_of_eq inside adds.grown)

theorem Fits.add (fits : Fits g b) (adds : Adds b b' addr v rd wr) (room : b.bufnxt < g.bufsize) (free : Free b addr)
    (marked : rd = true ∨ wr = true) : Fits g b' where
  bounded := by
    rw [adds.grown]
    exact room
  inUse j inside := by
    rcases adds.cases inside with before | rfl
    · obtain ⟨_,read,written,_⟩ := adds.old before
      rw [read,written]
      exact fits.inUse j before
    · rw [adds.new.2.1,adds.new.2.2.1]
      exact marked
  unusedRead j beyond := by
    rw [adds.grown] at beyond
    exact (adds.unused beyond).1.trans (fits.unusedRead j (Nat.le_of_succ_le beyond))
  unusedWrite j beyond := by
    rw [adds.grown] at beyond
    exact (adds.unused beyond).2.trans (fits.unusedWrite j (Nat.le_of_succ_le beyond))
  distinct left right same := by
    rcases adds.cases left with before | rfl <;> rcases adds.cases right with also | rfl
    · rw [(adds.old before).1,(adds.old also).1] at same
      exact fits.distinct before also same
    · rw [(adds.old before).1,adds.new.1] at same
      exact absurd same (free _ before)
    · rw [(adds.old also).1,adds.new.1] at same
      exact absurd same.symm (free _ also)
    · rfl
end Matching
end Patmos.TransactionalMemory
