import Patmos.StackCache
namespace Patmos.Core
-- There are two pipelines, numbered by `Fin 2`.
scoped instance neZero_two : NeZero 2 := ⟨by decide⟩

-- The bundles between the stages. The two pipelines of a bundle are `a` and `b`.
structure FeDec where
  instrA : BitVec 32
  instrB : BitVec 32
  pc : BitVec 30
  base : BitVec 30
  reloc : BitVec 32
  relPc : BitVec 30

def FeDec.flush (d : FeDec) : FeDec := {d with instrA := 0,instrB := 0}

-- The high bit inverts the predicate and predicate 0 is always true.
def predIfFalse : BitVec 4 := 8

structure AluOp where
  func : BitVec 4 := 0
  isMul : Bool := false
  isCmp : Bool := false
  isPred : Bool := false
  isBCpy : Bool := false
  isMTS : Bool := false
  isMFS : Bool := false

structure PredOp where
  func : BitVec 2 := 0
  dest : BitVec 3 := 0
  s1Addr : BitVec 4 := 0
  s2Addr : BitVec 4 := 0

structure JmpOp where
  branch : Bool := false
  target : BitVec 30 := 0
  reloc : BitVec 32 := 0

inductive MemType where
  | stack
  | localMem
  | cache
  | global
  deriving DecidableEq, Repr

structure MemOp where
  load : Bool := false
  store : Bool := false
  hword : Bool := false
  byte : Bool := false
  zext : Bool := false
  typ : MemType := .stack

structure CopOp where
  isCop : Bool := false
  isCustom : Bool := false
  rsAddrCop : Bool × Bool := (false,false)
  copId : BitVec 3 := 0
  funcId : BitVec 5 := 0

-- The part of DecEx that exists once for each pipeline.
structure Issue where
  pred : BitVec 4 := predIfFalse
  aluOp : AluOp := {}
  predOp : PredOp := {}
  rsAddr : Fin 2 → BitVec 5 := fun _ => 0
  rsData : Fin 2 → BitVec 32 := fun _ => 0
  rdAddr : BitVec 5 := 0
  immVal : BitVec 32 := 0
  immOp : Bool := false
  wrRd : Bool := false

structure DecEx where
  pc : BitVec 30 := 0
  base : BitVec 30 := 0
  relPc : BitVec 30 := 0
  a : Issue := {}
  b : Issue := {}
  jmpOp : JmpOp := {}
  memOp : MemOp := {}
  stackOp : StackCacheOp := .none
  copOp : CopOp := {}
  callAddr : BitVec 32 := 0
  call : Bool := false
  ret : Bool := false
  brcf : Bool := false
  trap : Bool := false
  xcall : Bool := false
  xret : Bool := false
  xsrc : BitVec 5 := 0
  nonDelayed : Bool := false
  illOp : Bool := false

namespace DecEx
def issue (d : DecEx) (k : Fin 2) : Issue := if k = 0 then d.a else d.b

def flush (d : DecEx) : DecEx :=
  {d with a := {d.a with pred := predIfFalse},b := {d.b with pred := predIfFalse},illOp := false
          copOp := {d.copOp with isCop := false}}

-- Everything that goes through the method cache.
def callRet (d : DecEx) : Bool := d.call || d.ret || d.brcf || d.xcall || d.xret
end DecEx

structure Result where
  addr : BitVec 5
  data : BitVec 32
  valid : Bool

def Result.flush (r : Result) : Result := {r with valid := false}

def Result.writes (r : Result) (addr : BitVec 5) : Bool := addr == r.addr && r.valid

structure MemIn where
  load : Bool
  store : Bool
  hword : Bool
  byte : Bool
  zext : Bool
  typ : MemType
  addr : BitVec 32
  data : BitVec 32
  call : Bool
  ret : Bool
  brcf : Bool
  trap : Bool
  xcall : Bool
  xret : Bool
  xsrc : BitVec 5
  illOp : Bool
  callRetAddr : BitVec 32
  callRetBase : BitVec 32
  nonDelayed : Bool

def MemIn.flush (m : MemIn) : MemIn :=
  {m with load := false,store := false,call := false,ret := false,brcf := false,trap := false,xcall := false
          xret := false,illOp := false}

structure ExMem where
  rd : Fin 2 → Result
  mem : MemIn
  pc : BitVec 30
  base : BitVec 30
  relPc : BitVec 30

def ExMem.flush (m : ExMem) : ExMem := {m with rd := fun k => (m.rd k).flush,mem := m.mem.flush}

structure ExcDec where
  exc : Bool
  excBase : BitVec 30
  excAddr : BitVec 30
  intr : Bool
  addr : BitVec 32
  src : BitVec 5
  inLocal : Bool

structure MemExc where
  call : Bool
  ret : Bool
  src : BitVec 5
  exc : Bool
  excBase : BitVec 30
  excAddr : BitVec 30
end Patmos.Core
