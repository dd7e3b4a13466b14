import Patmos.MCache
import Patmos.CircularBuffer
import Patmos.OrReduction
import Patmos.RegisterWidth
namespace Patmos.MethodCache
open MCacheReplFifo CircularBuffer Function Nat

structure Tag where
  valid : Bool
  addr : Nat
  size : Nat
  pos : Nat

def tag (r : MCacheReplFifo) (i : Nat) : Tag := ⟨r.validVec i,r.addrVec i,r.sizeVec i,r.posVec i⟩

def Tag.mask (invalidate : Bool) (t : Tag) : Tag := {t with valid := t.valid && !invalidate}

-- A method as it is laid out: methods follow one another at positions that are not wrapped.
structure Method where
  base : Nat
  start : Nat
  length : Nat

def evenSize (size : Nat) : Nat := size+size % 2

structure Matches (g : MethodGeometry) (ram : Nat → Word 4) (m : Method) (t : Tag) : Prop where
  size : t.size = m.length
  addr : t.valid = true → t.addr = m.base
  pos : t.valid = true → t.pos = m.start % g.words
  length : t.valid = true → m.length = evenSize (methodSize ram m.base)

def Vacant (t : Tag) : Prop := t.size = 0 ∧ t.valid = false

theorem matches_mask (invalidate : Bool) (fits : Matches g ram m t) : Matches g ram m (t.mask invalidate) := by
  have before : (t.mask invalidate).valid = true → t.valid = true := fun valid => (Bool.and_eq_true_iff.mp valid).1
  exact ⟨fits.size,fun valid => fits.addr (before valid),fun valid => fits.pos (before valid),fun valid => fits.length (before valid)⟩

theorem vacant_mask (invalidate : Bool) (vacant : Vacant t) : Vacant (t.mask invalidate) :=
  ⟨vacant.1,by rw [Tag.mask,vacant.2]; rfl⟩

-- The methods with numbers from first to last-1 have tags, first being the next to be evicted and last the next to be
-- written. The other tags are vacant.
structure Queue (g : MethodGeometry) (fits : Method → Tag → Prop) (r : MCacheReplFifo) (first last : Nat) (entry : Nat → Method) :
    Prop where
  some : first < last
  room : last ≤ first+g.methods
  tagged : r.nextTagReg = first % g.methods
  index : r.nextIndexReg = last % g.methods
  chain : ∀ n, first ≤ n → n < last → (entry n).start+(entry n).length = (entry (n+1)).start
  short : ∀ n, first ≤ n → n < last → (entry n).length < g.words
  even : (entry last).start % 2 = 0
  pos : r.nextPosReg = (entry last).start % g.words
  bounded : (entry last).start < (entry first).start+2*g.words
  free : r.freeSpaceReg = (g.words+(entry first).start : Int)-(entry last).start
  held : Holds g.methods (tag r) (fun n => fits (entry n)) first last
  rest : Holds g.methods (tag r) (fun _ => Vacant) last (first+g.methods)
  distinct : ∀ n m, first ≤ n → n < last → first ≤ m → m < last → r.validVec (n % g.methods) = true →
    r.validVec (m % g.methods) = true → (entry n).base = (entry m).base → n = m

abbrev Fifo (g : MethodGeometry) (ram : Nat → Word 4) := Queue g (Matches g ram)

-- What is known of a tag includes its size, and does not depend on the tag being valid.
structure Labels (fits : Method → Tag → Prop) : Prop where
  size : fits m t → t.size = m.length
  mask : ∀ invalidate, fits m t → fits m (t.mask invalidate)

theorem labels_matches (g : MethodGeometry) (ram : Nat → Word 4) : Labels (Matches g ram) :=
  ⟨fun known => known.size,fun invalidate known => matches_mask invalidate known⟩

theorem nextTag_mod {g : MethodGeometry} (several : 0 < g.methods) (n : Nat) :
    nextTag g (n % g.methods) = (n+1) % g.methods :=
  Register.succ_mod several n

theorem asSInt_exact {bits : Nat} (low : -2^bits ≤ value) (high : value < 2^bits) : asSInt (bits+1) value = value := by
  apply Int.bmod_eq_of_le_mul_two
  · push_cast
    omega
  · push_cast
    omega

theorem size_exact (g : MethodGeometry) (small : len < g.words) : asSInt (g.sizeBits+1) (len : Int) = len := by
  have words : (g.words : Int) = 2^g.sizeBits := by simp [MethodGeometry.words]
  exact asSInt_exact (by omega) (by omega)

theorem space_exact (g : MethodGeometry) (low : -(2*g.words : Int) ≤ space) (high : space < 2*g.words) :
    asSInt (g.sizeBits+2) space = space := by
  have words : (g.words : Int) = 2^g.sizeBits := by simp [MethodGeometry.words]
  exact asSInt_exact (by omega) (by omega)

attribute [local simp] MCacheReplFifo.next validVecNext sizeVecNext Tag.mask

section Cycle
variable {g : MethodGeometry} {fits : Method → Tag → Prop} {r : MCacheReplFifo} {ispmOneBit : Nat} {ena invalidate : Bool} {ex : ExICache}
  {ctrl : MCacheCtrlRepl} {mem : Banked (Word 4)} {first last : Nat} {entry : Nat → Method}

theorem tag_rests (frees : r.frees = false) (quiet : ctrl.wTag = false) :
    tag (r.next g ispmOneBit ena invalidate ex ctrl mem) = fun i => (tag r i).mask invalidate := by
  funext i
  cases invalidate <;> simp [tag,frees,quiet]

theorem tag_frees (frees : r.frees = true) (quiet : ctrl.wTag = false) :
    tag (r.next g ispmOneBit ena invalidate ex ctrl mem) = fun i => (update (tag r) r.nextTagReg
      {tag r r.nextTagReg with valid := false,size := 0} i).mask invalidate := by
  funext i
  by_cases here : i = r.nextTagReg
  · subst here
    cases invalidate <;> simp [tag,frees,quiet]
  · cases invalidate <;> simp [tag,quiet,here]

theorem tag_writes (frees : r.frees = false) (writes : ctrl.wTag = true) :
    tag (r.next g ispmOneBit ena invalidate ex ctrl mem) = fun i => (update (tag r) r.nextIndexReg
      ⟨true,ctrl.wAddr,ctrl.wSize % 2^(g.sizeBits+1),r.nextPosReg⟩ i).mask invalidate := by
  funext i
  by_cases here : i = r.nextIndexReg
  · subst here
    cases invalidate <;> simp [tag,frees,writes]
  · cases invalidate <;> simp [tag,frees,writes,here]

theorem valid_before (valid : (r.next g ispmOneBit ena invalidate ex ctrl mem).validVec i = true)
    (other : ctrl.wTag = false ∨ i ≠ r.nextIndexReg) : r.validVec i = true := by
  have unwritten : ¬(ctrl.wTag = true ∧ i = r.nextIndexReg) := by rcases other with quiet | elsewhere <;> simp [*]
  simp only [next,validVecNext] at valid
  split at valid
  · cases valid
  · split at valid
    · cases valid
    · exact valid

theorem Queue.initial (several : 0 < g.methods) (sizes : ∀ i, r.sizeVec i = 0) (invalid : ∀ i, r.validVec i = false)
    (index : r.nextIndexReg = 0) (tagged : r.nextTagReg = 0) (pos : r.nextPosReg = 0) (free : r.freeSpaceReg = g.words)
    (known : ∀ t, Vacant t → fits ⟨0,0,0⟩ t) : Queue g fits r 0 g.methods fun _ => ⟨0,0,0⟩ := by
  have words : 0 < g.words := Nat.two_pow_pos g.sizeBits
  refine ⟨several,by omega,by rw [tagged,zero_mod],by rw [index,mod_self],fun _ _ _ => rfl,fun _ _ _ => words,rfl,
    by rw [pos,zero_mod],by simpa using words,by simp [free],fun n _ _ => known _ ⟨sizes _,invalid _⟩,Holds.empty (by omega),?_⟩
  intro n m _ _ _ _ valid
  rw [invalid] at valid
  cases valid

theorem Queue.keep (labels : Labels fits) (queue : Queue g fits r first last entry) (frees : r.frees = false) (quiet : ctrl.wTag = false) :
    Queue g fits (r.next g ispmOneBit ena invalidate ex ctrl mem) first last entry where
  some := queue.some
  room := queue.room
  tagged := by simp [nextTagNext,frees,quiet,queue.tagged]
  index := by simp [quiet,queue.index]
  chain := queue.chain
  short := queue.short
  even := queue.even
  pos := by simp [quiet,queue.pos]
  bounded := queue.bounded
  free := by simp [freeSpaceNext,frees,quiet,queue.free]
  held := by
    rw [tag_rests frees quiet]
    exact queue.held.map _ fun _ _ known => labels.mask invalidate known
  rest := by
    rw [tag_rests frees quiet]
    exact queue.rest.map _ fun _ _ vacant => vacant_mask invalidate vacant
  distinct := fun n m above below above' below' valid valid' =>
    queue.distinct n m above below above' below' (valid_before valid (.inl quiet)) (valid_before valid' (.inl quiet))

def placed (entry : Nat → Method) (last base length : Nat) : Nat → Method :=
  update (update entry last ⟨base,(entry last).start,length⟩) (last+1) ⟨0,(entry last).start+length,0⟩

theorem placed_old (entry : Nat → Method) (base length : Nat) (before : n < last) : placed entry last base length n = entry n := by
  rw [placed,update_of_ne (by omega),update_of_ne (by omega)]

theorem placed_new (entry : Nat → Method) (last base length : Nat) :
    placed entry last base length last = ⟨base,(entry last).start,length⟩ := by
  rw [placed,update_of_ne (by omega),update_self]

theorem placed_next (entry : Nat → Method) (last base length : Nat) :
    placed entry last base length (last+1) = ⟨0,(entry last).start+length,0⟩ := update_self ..

-- The tag of the oldest method is reused when all tags are in use.
def firstNext (g : MethodGeometry) (first last : Nat) : Nat := if last = first+g.methods then first+1 else first

section
variable (queue : Queue g fits r first last entry)
include queue

theorem Queue.start_mono (above : first ≤ n) (ordered : n ≤ m) (below : m ≤ last) : (entry n).start ≤ (entry m).start := by
  induction ordered with
  | refl => exact le_rfl
  | @step m ordered ih =>
    have step := queue.chain m (above.trans ordered) below
    have before := ih (le_of_succ_le below)
    exact before.trans (by rw [← step]; exact le_add_right _ _)

theorem Queue.slot (above : first ≤ n) (below : n < last) (above' : first ≤ m) (below' : m < first+g.methods)
    (same : n % g.methods = m % g.methods) : n = m :=
  position_unique same above (below.trans_le queue.room) above' below'

theorem Queue.evict (labels : Labels fits) (several : 0 < g.methods) (frees : r.frees = true) (quiet : ctrl.wTag = false) :
    Queue g fits (r.next g ispmOneBit ena invalidate ex ctrl mem) (first+1) last entry := by
  have negative : r.freeSpaceReg < 0 := of_decide_eq_true frees
  have free := queue.free
  have chained := queue.chain first le_rfl queue.some
  have short := queue.short first le_rfl queue.some
  have bounded := queue.bounded
  have room := queue.room
  have more : first+1 < last := by
    rcases lt_or_ge (first+1) last with more | least
    · exact more
    · have only : last = first+1 := least.antisymm queue.some
      rw [← only] at chained
      omega
  have size : r.sizeVec r.nextTagReg = (entry first).length := by
    rw [queue.tagged]
    exact labels.size (queue.held first le_rfl queue.some)
  refine ⟨more,room.trans (by omega),?_,?_,?_,?_,queue.even,?_,?_,?_,?_,?_,?_⟩
  · rw [MCacheReplFifo.next,nextTagNext,if_pos frees,queue.tagged]
    exact nextTag_mod several first
  · simp [quiet,queue.index]
  · exact fun n above => queue.chain n (le_of_succ_le above)
  · exact fun n above => queue.short n (le_of_succ_le above)
  · simp [quiet,queue.pos]
  · omega
  · change r.freeSpaceNext g ctrl = _
    rw [freeSpaceNext,if_pos frees,size,size_exact g short,space_exact g (by omega) (by omega)]
    omega
  · rw [tag_frees frees quiet,queue.tagged]
    refine Holds.map ?_ (Tag.mask invalidate) fun _ _ known => labels.mask invalidate known
    intro n above below
    have other : n % g.methods ≠ first % g.methods := fun same => by
      have := queue.slot (le_of_succ_le above) below le_rfl (by omega) same
      omega
    rw [update_of_ne other]
    exact queue.held n (le_of_succ_le above) below
  · rw [tag_frees frees quiet,queue.tagged]
    refine Holds.map ?_ (Tag.mask invalidate) fun _ _ vacant => vacant_mask invalidate vacant
    rw [← add_mod_right first]
    have pushed := queue.rest.push room (by omega) {tag r ((first+g.methods) % g.methods) with valid := false,size := 0} ⟨rfl,rfl⟩
    rwa [add_right_comm] at pushed
  · exact fun n m above below above' below' valid valid' =>
      queue.distinct n m (le_of_succ_le above) below (le_of_succ_le above') below' (valid_before valid (.inl quiet))
        (valid_before valid' (.inl quiet))

theorem Queue.space (frees : r.frees = false) : (entry last).start ≤ (entry first).start+g.words := by
  have enough : ¬r.freeSpaceReg < 0 := of_decide_eq_false frees
  rw [queue.free] at enough
  omega

theorem Queue.reused (labels : Labels fits) :
    r.sizeVec r.nextIndexReg+(entry first).start = (entry (firstNext g first last)).start := by
  rw [queue.index,firstNext]
  split
  next full =>
    have oldest := labels.size (queue.held first le_rfl queue.some)
    have chained := queue.chain first le_rfl queue.some
    rw [full,add_mod_right,← chained,add_comm]
    exact congrArg _ oldest
  next partly =>
    have room := queue.room
    have vacant := (queue.rest last le_rfl (by omega)).1
    exact (congrArg (· + (entry first).start) vacant).trans (zero_add _)

theorem Queue.reused_short (labels : Labels fits) : r.sizeVec r.nextIndexReg < g.words := by
  have oldest := queue.short first le_rfl queue.some
  have reused := queue.reused labels
  have chained := queue.chain first le_rfl queue.some
  rw [firstNext] at reused
  split at reused <;> omega

theorem Queue.firstNext_bounds : first ≤ firstNext g first last ∧ firstNext g first last ≤ last ∧
    last < firstNext g first last+g.methods := by
  have some := queue.some
  have room := queue.room
  rw [firstNext]
  split <;> omega

theorem Queue.full_iff : r.nextTagReg = r.nextIndexReg ↔ last = first+g.methods := by
  have some := queue.some
  rw [queue.tagged,queue.index]
  constructor
  · intro same
    by_contra partly
    have only := queue.slot le_rfl some some.le (lt_of_le_of_ne queue.room partly) same
    omega
  · intro full
    rw [full,add_mod_right]

theorem Queue.insert_tag (several : 0 < g.methods) (frees : r.frees = false)
    (writes : ctrl.wTag = true) : r.nextTagNext g ctrl = firstNext g first last % g.methods := by
  have full := queue.full_iff
  rw [nextTagNext,frees,firstNext,queue.index]
  simp only [Bool.false_eq_true,if_false,writes,true_and]
  rw [← queue.index]
  split
  next same =>
    have all := full.mp same
    rw [if_pos all,queue.index,nextTag_mod several,all,add_right_comm,add_mod_right]
  next different =>
    rw [if_neg fun all => different (full.mpr all),queue.tagged]

theorem Queue.insert_held (value : Tag) (known : fits (placed entry last base length last) value) :
    Holds g.methods (update (tag r) (last % g.methods) value) (fun n => fits (placed entry last base length n))
      (firstNext g first last) (last+1) := by
  have low := queue.firstNext_bounds
  refine Holds.push ?_ low.2.1 low.2.2 value known
  exact (queue.held.within low.1 le_rfl).weaken fun n value _ before known => by
    rwa [placed_old entry base length before]

theorem Queue.insert_rest (value : Tag) :
    Holds g.methods (update (tag r) (last % g.methods) value) (fun _ => Vacant) (last+1)
      (firstNext g first last+g.methods) := by
  have some := queue.some
  rw [firstNext]
  split
  next full => exact Holds.empty (by omega)
  next partly =>
    intro n above below
    have other : last % g.methods ≠ n % g.methods := position_ne (by omega) (by omega)
    rw [update_of_ne other.symm]
    exact queue.rest n (by omega) below
end

theorem Queue.insert (labels : Labels fits) (queue : Queue g fits r first last entry) (several : 0 < g.methods) (frees : r.frees = false)
    (writes : ctrl.wTag = true) (short : ctrl.wSize < g.words) (even : ctrl.wSize % 2 = 0)
    (known : fits ⟨ctrl.wAddr,(entry last).start,ctrl.wSize⟩ ⟨true,ctrl.wAddr,ctrl.wSize,r.nextPosReg⟩)
    (fresh : ∀ n, first ≤ n → n < last → r.validVec (n % g.methods) = true → (entry n).base ≠ ctrl.wAddr) :
    Queue g fits (r.next g ispmOneBit ena invalidate ex ctrl mem) (firstNext g first last) (last+1)
      (placed entry last ctrl.wAddr ctrl.wSize) := by
  have low := queue.firstNext_bounds
  have reused := queue.reused labels
  have space := queue.space frees
  have free := queue.free
  have exact : ctrl.wSize % 2^(g.sizeBits+1) = ctrl.wSize := mod_eq_of_lt (by
    have wider : 2^(g.sizeBits+1) = g.words*2 := pow_succ ..
    omega)
  have mono := queue.start_mono low.1 low.2.1 le_rfl
  have initial : (placed entry last ctrl.wAddr ctrl.wSize (firstNext g first last)).start =
      (entry (firstNext g first last)).start := by
    rcases lt_or_eq_of_le low.2.1 with before | only
    · rw [placed_old _ _ _ before]
    · rw [only,placed_new]
  refine ⟨by omega,by omega,?_,?_,?_,?_,?_,?_,?_,?_,?_,?_,?_⟩
  · exact queue.insert_tag several frees writes
  · rw [← nextTag_mod several,← queue.index]
    exact if_pos writes
  · intro n above below
    rcases lt_or_eq_of_le (le_of_lt_succ below) with before | rfl
    · have chained := queue.chain n (low.1.trans above) before
      rw [placed_old _ _ _ before,chained]
      rcases Nat.lt_or_eq_of_le before with earlier | newest
      · rw [placed_old _ _ _ earlier]
      · rw [show n+1 = last from newest,placed_new]
    · rw [placed_new,placed_next]
  · intro n above below
    rcases lt_or_eq_of_le (le_of_lt_succ below) with before | rfl
    · rw [placed_old _ _ _ before]
      exact queue.short n (low.1.trans above) before
    · rw [placed_new]
      exact short
  · have even := queue.even
    rw [placed_next]
    change ((entry last).start+ctrl.wSize) % 2 = 0
    omega
  · rw [placed_next]
    refine (if_pos writes).trans ?_
    rw [queue.pos]
    exact mod_add_mod ..
  · rw [placed_next]
    change (entry last).start+ctrl.wSize < _
    omega
  · rw [placed_next,initial]
    change r.freeSpaceNext g ctrl = (g.words+(entry (firstNext g first last)).start : Int)-((entry last).start+ctrl.wSize : Nat)
    rw [freeSpaceNext,frees,writes,exact,size_exact g short,size_exact g (queue.reused_short labels)]
    simp only [Bool.false_eq_true,if_false,if_true]
    rw [space_exact g (by omega) (by omega)]
    omega
  · rw [tag_writes frees writes,exact,queue.index]
    refine Holds.map (queue.insert_held _ ?_) (Tag.mask invalidate) fun _ _ known => labels.mask invalidate known
    rw [placed_new]
    exact known
  · rw [tag_writes frees writes,queue.index]
    exact (queue.insert_rest _).map (Tag.mask invalidate) fun _ _ vacant => vacant_mask invalidate vacant
  · have other : ∀ n, firstNext g first last ≤ n → n < last → n % g.methods ≠ r.nextIndexReg := by
      intro n above before
      rw [queue.index]
      exact position_ne before (by omega)
    have unlike : ∀ n, firstNext g first last ≤ n → n < last →
        (r.next g ispmOneBit ena invalidate ex ctrl mem).validVec (n % g.methods) = true → (entry n).base ≠ ctrl.wAddr :=
      fun n above before valid =>
        fresh n (low.1.trans above) before (valid_before valid (.inr (other n above before)))
    intro n m above below above' below' valid valid' same
    rcases lt_or_eq_of_le (le_of_lt_succ below) with before | rfl <;>
      rcases lt_or_eq_of_le (le_of_lt_succ below') with before' | rfl
    · rw [placed_old _ _ _ before,placed_old _ _ _ before'] at same
      exact queue.distinct n m (low.1.trans above) before (low.1.trans above') before'
        (valid_before valid (.inr (other n above before))) (valid_before valid' (.inr (other m above' before'))) same
    · rw [placed_old _ _ _ before,placed_new] at same
      exact absurd same (unlike n above before valid)
    · rw [placed_old _ _ _ before',placed_new] at same
      exact absurd same.symm (unlike m above' before' valid')
    · rfl
end Cycle

section Lookup
variable {g : MethodGeometry} {ram : Nat → Word 4} {r : MCacheReplFifo} {first last : Nat} {entry : Nat → Method}

theorem hit_iff (g : MethodGeometry) (r : MCacheReplFifo) (base : Nat) :
    r.hit g base = true ↔ ∃ i < g.methods, r.validVec i = true ∧ r.addrVec i = base := by
  simp only [hit,List.any_eq_true,List.mem_range,hitVec,Bool.and_eq_true,beq_iff_eq]
  constructor
  · rintro ⟨i,bound,same,valid⟩
    exact ⟨i,bound,valid,same.symm⟩
  · rintro ⟨i,bound,valid,same⟩
    exact ⟨i,bound,same.symm,valid⟩

theorem Queue.owner (fifo : Fifo g ram r first last entry) (bound : i < g.methods) (valid : r.validVec i = true) :
    ∃ n, first ≤ n ∧ n < last ∧ n % g.methods = i ∧ (entry n).base = r.addrVec i ∧ r.posVec i = (entry n).start % g.words := by
  obtain ⟨n,above,below,rfl⟩ := cell_covered bound first
  rcases lt_or_ge n last with inside | outside
  · have fits := fifo.held n above inside
    exact ⟨n,above,inside,rfl,(fits.addr valid).symm,fits.pos valid⟩
  · have vacant := (fifo.rest n outside below).2
    exact absurd valid (by rw [show r.validVec (n % g.methods) = false from vacant]; decide)

theorem Queue.found (fifo : Fifo g ram r first last entry) (hit : r.hit g base = true) :
    ∃ n, first ≤ n ∧ n < last ∧ r.validVec (n % g.methods) = true ∧ (entry n).base = base ∧
      r.pos g base = (entry n).start % g.words := by
  obtain ⟨i,bound,valid,addr⟩ := (hit_iff g r base).mp hit
  obtain ⟨n,above,below,rfl,owned,place⟩ := fifo.owner bound valid
  refine ⟨n,above,below,valid,owned.trans addr,?_⟩
  have here : r.mergePosVec base (n % g.methods) = r.posVec (n % g.methods) := by
    rw [mergePosVec,hitVec,valid,addr]
    simp
  rw [MCacheReplFifo.pos,if_pos hit,← place]
  -- No other tag has the same address, so the or of the positions is this one.
  refine OrReduction.foldl_single ⟨Nat.zero_or,Nat.or_zero,Nat.or_self⟩ _ _ _ ?_ (.inr ⟨rfl,?_⟩)
  · intro value member
    obtain ⟨j,range,rfl⟩ := List.mem_map.mp member
    cases other : r.hitVec base j with
    | false => exact .inl (by simp [mergePosVec,other])
    | true =>
      simp only [hitVec,Bool.and_eq_true,beq_iff_eq] at other
      obtain ⟨m,above',below',rfl,owned',_⟩ := fifo.owner (List.mem_range.mp range) other.2
      have same := fifo.distinct n m above below above' below' valid other.2
        (by rw [owned,owned',addr,other.1])
      rw [← same,here]
      exact .inr rfl
  · exact List.mem_map.mpr ⟨n % g.methods,List.mem_range.mpr bound,here⟩
end Lookup
end Patmos.MethodCache
