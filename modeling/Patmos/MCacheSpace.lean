import Mathlib.Algebra.BigOperators.Ring.Finset
import Patmos.MCacheCoherence
namespace Patmos.MethodCache
open Transition MCacheReplFifo CircularBuffer Finset Nat

structure ReplCycle where
  ena : Bool
  invalidate : Bool
  ex : ExICache
  ctrl : MCacheCtrlRepl
  mem : Banked (Word 4)

section
variable (g : MethodGeometry) (m : Method)

-- A method that missed is fetched once, before the next call or return. Its tag comes with its size, rounded to the
-- next double word.
def replacement (ispmOneBit : Nat) : System MCacheReplFifo ReplCycle where
  start r := r.hitReg = true ∧ (∀ i, r.sizeVec i = 0) ∧ (∀ i, r.validVec i = false) ∧ r.nextIndexReg = 0 ∧ r.nextTagReg = 0 ∧
    r.nextPosReg = 0 ∧ r.freeSpaceReg = g.words
  admits r x := (x.ex.doCallRet = true → x.ena = true → r.hitReg = true) ∧
    (x.ctrl.wTag = true → r.hitReg = false ∧ x.ctrl.wAddr = r.callRetBaseReg ∧
      ∃ size, 1 ≤ size ∧ size ≤ g.words ∧ x.ctrl.wSize = evenSize size)
  next r x := r.next g ispmOneBit x.ena x.invalidate x.ex x.ctrl x.mem

-- The method does not fill the cache, and no space is being freed when its tag is written.
def Tagging (r : MCacheReplFifo) (x : ReplCycle) : Prop := x.ctrl.wTag = true → x.ctrl.wSize < g.words ∧ r.frees = false

structure Accounted (r : MCacheReplFifo) : Prop where
  space : r.freeSpaceReg+∑ i ∈ range g.methods, (r.sizeVec i : Int) = g.words
  distinct : ∀ i < g.methods, ∀ j < g.methods, r.validVec i = true → r.validVec j = true → r.addrVec i = r.addrVec j → i = j
  disjoint : 0 ≤ r.freeSpaceReg → ∀ i < g.methods, ∀ j < g.methods, i ≠ j → ∀ a < r.sizeVec i, ∀ b < r.sizeVec j,
    (r.posVec i+a) % g.words ≠ (r.posVec j+b) % g.words

-- A tag keeps its place when it becomes invalid.
structure Located (t : Tag) : Prop where
  size : t.size = m.length
  addr : t.valid = true → t.addr = m.base
  pos : t.size ≠ 0 → t.pos = m.start % g.words

theorem labels_located : Labels (Located g) where
  size known := known.size
  mask _ known := ⟨known.size,fun valid => known.addr (Bool.and_eq_true_iff.mp valid).1,known.pos⟩
end

section Account
variable {g : MethodGeometry} {r : MCacheReplFifo} {first last : Nat} {entry : Nat → Method}

section
variable (queue : Queue g (Located g) r first last entry)
include queue

theorem sizes_sum (few : n ≤ g.methods) :
    ∑ k ∈ range n, r.sizeVec ((first+k) % g.methods)+(entry first).start =
      (entry (min (first+n) last)).start := by
  have some := queue.some
  induction n with
  | zero => rw [sum_range_zero,zero_add,add_zero,min_eq_left some.le]
  | succ n ih =>
    have ih := ih (le_of_succ_le few)
    rw [sum_range_succ,add_right_comm,ih]
    rcases lt_or_ge (first+n) last with inside | outside
    · have size : r.sizeVec ((first+n) % g.methods) = (entry (first+n)).length :=
        (queue.held (first+n) (le_add_right _ _) inside).size
      rw [min_eq_left inside.le,min_eq_left (show first+(n+1) ≤ last from inside),size]
      exact queue.chain (first+n) (le_add_right _ _) inside
    · have size : r.sizeVec ((first+n) % g.methods) = 0 := (queue.rest (first+n) outside (by omega)).1
      rw [min_eq_right outside,min_eq_right (by omega),size,add_zero]

theorem space_accounted : r.freeSpaceReg+∑ i ∈ range g.methods, (r.sizeVec i : Int) = g.words := by
  have total := sizes_sum queue le_rfl
  rw [min_eq_right queue.room,window_sum] at total
  have sum : ∑ i ∈ range g.methods, (r.sizeVec i : Int)+(entry first).start = (entry last).start := by exact_mod_cast total
  have free := queue.free
  omega

theorem tag_located (bound : i < g.methods) (used : r.validVec i = true ∨ r.sizeVec i ≠ 0) :
    ∃ n, first ≤ n ∧ n < last ∧ n % g.methods = i ∧ Located g (entry n) (tag r i) := by
  obtain ⟨n,above,below,rfl⟩ := cell_covered bound first
  rcases lt_or_ge n last with inside | outside
  · exact ⟨n,above,inside,rfl,queue.held n above inside⟩
  · obtain ⟨empty,invalid⟩ := queue.rest n outside below
    rcases used with valid | some
    · exact absurd valid (by rw [show r.validVec (n % g.methods) = false from invalid]; decide)
    · exact absurd empty some

theorem ranges_disjoint (space : 0 ≤ r.freeSpaceReg) (left : i < g.methods)
    (right : j < g.methods) (other : i ≠ j) (inside : a < r.sizeVec i) (inside' : b < r.sizeVec j) :
    (r.posVec i+a) % g.words ≠ (r.posVec j+b) % g.words := by
  obtain ⟨n,above,below,rfl,known⟩ := tag_located queue left (.inr (Nat.ne_zero_of_lt inside))
  obtain ⟨m,above',below',rfl,known'⟩ := tag_located queue right (.inr (Nat.ne_zero_of_lt inside'))
  have place : r.posVec (n % g.methods) = (entry n).start % g.words := known.pos (Nat.ne_zero_of_lt inside)
  have place' : r.posVec (m % g.methods) = (entry m).start % g.words := known'.pos (Nat.ne_zero_of_lt inside')
  have size : r.sizeVec (n % g.methods) = (entry n).length := known.size
  have size' : r.sizeVec (m % g.methods) = (entry m).length := known'.size
  have chain := queue.chain n above below
  have chain' := queue.chain m above' below'
  have free := queue.free
  have low := queue.start_mono le_rfl above below.le
  have low' := queue.start_mono le_rfl above' below'.le
  have high : (entry (n+1)).start ≤ _ := queue.start_mono (le_succ_of_le above) below le_rfl
  have high' : (entry (m+1)).start ≤ _ := queue.start_mono (le_succ_of_le above') below' le_rfl
  rw [place,place',mod_add_mod,mod_add_mod]
  intro overlap
  have same := @position_unique _ _ (entry first).start _ overlap (by omega) (by omega) (by omega) (by omega)
  -- Of two methods the earlier one ends before the later one starts.
  rcases lt_trichotomy n m with before | rfl | after
  · have apart : (entry (n+1)).start ≤ _ := queue.start_mono (le_succ_of_le above) before below'.le
    omega
  · exact other rfl
  · have apart : (entry (m+1)).start ≤ _ := queue.start_mono (le_succ_of_le above') after below.le
    omega

theorem queue_accounted : Accounted g r where
  space := space_accounted queue
  distinct _ left _ right valid valid' same := by
    obtain ⟨n,above,below,rfl,known⟩ := tag_located queue left (.inl valid)
    obtain ⟨m,above',below',rfl,known'⟩ := tag_located queue right (.inl valid')
    have base : (entry n).base = (entry m).base := (known.addr valid).symm.trans (same.trans (known'.addr valid'))
    rw [queue.distinct n m above below above' below' valid valid' base]
  disjoint space _ left _ right other _ inside _ inside' := ranges_disjoint queue space left right other inside inside'
end
end Account

structure Replacing (g : MethodGeometry) (r : MCacheReplFifo) : Prop where
  queue : ∃ first last entry, Queue g (Located g) r first last entry
  missed : r.hitReg = false → r.hit g r.callRetBaseReg = false

section Runs
variable {g : MethodGeometry} {ispmOneBit : Nat} {r : MCacheReplFifo} {x : ReplCycle}

theorem replacement_start (several : 0 < g.methods) (begun : (replacement g ispmOneBit).start r) : Replacing g r := by
  obtain ⟨hit,sizes,invalid,index,tagged,pos,free⟩ := begun
  refine ⟨⟨_,_,_,Queue.initial several sizes invalid index tagged pos free fun t ⟨empty,vacant⟩ => ?_⟩,
    fun missed => absurd hit (by rw [missed]; decide)⟩
  exact ⟨empty,by simp [vacant],absurd empty⟩

theorem missed_still (missed : r.hit g base = false) (quiet : x.ctrl.wTag = false) :
    ((replacement g ispmOneBit).next r x).hit g base = false := by
  cases found : ((replacement g ispmOneBit).next r x).hit g base with
  | false => rfl
  | true =>
    obtain ⟨i,bound,valid,addr⟩ := (hit_iff g _ base).mp found
    have before := valid_before valid (.inl quiet)
    have still : ((replacement g ispmOneBit).next r x).addrVec = r.addrVec := by
      simp [replacement,next,quiet]
    rw [still] at addr
    have hit := (hit_iff g r base).mpr ⟨i,bound,before,addr⟩
    rw [missed] at hit
    cases hit

theorem lookup_missed (valid : Replacing g r) (admitted : (replacement g ispmOneBit).admits r x) (quiet : x.ctrl.wTag = false)
    (missed : ((replacement g ispmOneBit).next r x).hitReg = false) :
    ((replacement g ispmOneBit).next r x).hit g ((replacement g ispmOneBit).next r x).callRetBaseReg = false := by
  apply missed_still _ quiet
  simp only [replacement,next,quiet] at missed ⊢
  cases goes : x.ex.doCallRet && x.ena with
  | false =>
    rw [goes] at missed
    exact valid.missed missed
  | true =>
    obtain ⟨called,ena⟩ := Bool.and_eq_true_iff.mp goes
    have hit := admitted.1 called ena
    rw [goes] at missed
    cases cached : selCache ispmOneBit x.ex.callRetBase with
    | false =>
      rw [cached] at missed
      exact absurd hit (by rw [show r.hitReg = false from missed]; decide)
    | true =>
      rw [cached] at missed
      exact missed

theorem replacement_step (several : 0 < g.methods) (valid : Replacing g r)
    (admitted : ((replacement g ispmOneBit).restrict (Tagging g)).admits r x) :
    Replacing g ((replacement g ispmOneBit).next r x) := by
  obtain ⟨first,last,entry,queue⟩ := valid.queue
  cases tags : x.ctrl.wTag with
  | false =>
    refine ⟨?_,lookup_missed valid admitted.1 tags⟩
    cases frees : r.frees with
    | true => exact ⟨_,_,_,queue.evict (labels_located g) several frees tags⟩
    | false => exact ⟨_,_,_,queue.keep (labels_located g) frees tags⟩
  | true =>
    obtain ⟨missing,addr,size,-,-,rounded⟩ := admitted.1.2 tags
    obtain ⟨short,frees⟩ := admitted.2 tags
    have even : x.ctrl.wSize % 2 = 0 := by
      rw [rounded]
      exact (size_even size).2
    have hit : ((replacement g ispmOneBit).next r x).hitReg = true := if_pos tags
    refine ⟨⟨_,_,_,queue.insert (labels_located g) several frees tags short even ⟨rfl,fun _ => rfl,fun _ => queue.pos⟩ ?_⟩,
      fun missed => absurd hit (by rw [missed]; decide)⟩
    intro n above below used same
    have known : r.addrVec (n % g.methods) = (entry n).base := (queue.held n above below).addr used
    have found := (hit_iff g r r.callRetBaseReg).mpr
      ⟨n % g.methods,mod_lt n several,used,known.trans (same.trans addr)⟩
    rw [valid.missed missing] at found
    cases found

theorem cache_space_accounted (g : MethodGeometry) (ispmOneBit : Nat) (several : 0 < g.methods)
    (path : Reached ((replacement g ispmOneBit).restrict (Tagging g)) r) : Accounted g r := by
  have valid : Replacing g r := path.invariant (fun r begun => @replacement_start g ispmOneBit r several begun)
    fun _ _ valid admitted => replacement_step several valid admitted
  obtain ⟨first,last,entry,queue⟩ := valid.queue
  exact queue_accounted queue
end Runs

def Sizes (g : MethodGeometry) (s : State) (_ : Cycle) : Prop :=
  s.cache.ctrl.sized g = true → 1 ≤ s.cache.ctrl.size g ∧ s.cache.ctrl.size g ≤ g.words

-- The control unit and the replacement unit know of the same miss.
structure Together (s : State) : Prop where
  base : s.cache.repl.hitReg = false → s.cache.ctrl.callRetBaseReg = s.cache.repl.callRetBaseReg
  size : s.cache.ctrl.stateReg = .size → s.cache.repl.hitReg = false

section Cache
variable {g : MethodGeometry} {ispmOneBit : Nat} {s : State} {x : Cycle}

def replCycle (g : MethodGeometry) (s : State) (x : Cycle) : ReplCycle :=
  ⟨x.ena,x.invalidate || s.cache.ctrl.illMem g,x.ex,s.cache.ctrlrepl g x.fe,s.cache.mem⟩

theorem hit_still (untagged : s.cache.ctrl.sized g = false) (silent : x.ex.doCallRet = false) :
    (s.after g ispmOneBit x).cache.repl.hitReg = s.cache.repl.hitReg := by
  simp [next,untagged,silent]

theorem size_entered (size : (s.after g ispmOneBit x).cache.ctrl.stateReg = .size) :
    s.cache.ctrl.sized g = false ∧ (s.cache.ctrl.stateReg = .idle ∧ s.cache.repl.hitReg = false ∨ s.cache.ctrl.stateReg = .size) := by
  simp only [system_ctrl,MCacheCtrl.next] at size
  split at size
  · cases size
  · split at size
    · split at size <;> cases size
    · unfold MCacheCtrl.stateNext at size
      cases state : s.cache.ctrl.stateReg with
      | idle =>
        cases hit : s.cache.repl.hitReg with
        | false => exact ⟨by simp [MCacheCtrl.sized,state],.inl ⟨rfl,rfl⟩⟩
        | true => simp [state,hit] at size
      | size =>
        cases tagged : s.cache.ctrl.sized g with
        | false => exact ⟨rfl,.inr rfl⟩
        | true => simp [state,tagged] at size
      | transfer =>
        simp only [state] at size
        split at size <;> cases size
      | error | errorDec | errorExe | errorMem => simp [state] at size

theorem together_step (together : Together s) (issues : Issues g ispmOneBit s x) : Together (s.after g ispmOneBit x) := by
  constructor
  · intro missed
    cases called : x.ex.doCallRet with
    | true =>
      obtain ⟨idle,hit⟩ := issues.1 called
      simp only [system_repl,next,hit] at missed
      cases ena : x.ena with
      | false => simp [ena] at missed
      | true => simp [next,MCacheCtrl.next,called,ena]
    | false =>
      have before : s.cache.repl.hitReg = false := by
        simp only [system_repl,next,called] at missed
        split at missed
        · cases missed
        · exact missed
      simpa [next,MCacheCtrl.next,called] using together.base before
  · intro size
    obtain ⟨untagged,before⟩ := size_entered size
    have missed : s.cache.repl.hitReg = false := by
      rcases before with ⟨-,missed⟩ | waiting
      · exact missed
      · exact together.size waiting
    rw [hit_still untagged (issues_quiet issues (.inr missed)),missed]

theorem cycle_admitted (wide : Wide g) (together : Together s) (issues : Issues g ispmOneBit s x) (sizes : Sizes g s x) :
    (replacement g ispmOneBit).admits s.cache.repl (replCycle g s x) := by
  refine ⟨fun called _ => (issues.1 called).2,fun tagged => ?_⟩
  have sized : s.cache.ctrl.sized g = true := tagged
  obtain ⟨low,high⟩ := sizes sized
  have missed := together.size (of_decide_eq_true sized).1
  refine ⟨missed,(if_pos sized).trans (together.base missed),s.cache.ctrl.size g,low,high,(if_pos sized).trans ?_⟩
  have wider : 2^(g.sizeBits+1) = g.words*2 := pow_succ ..
  have words : 2 ≤ g.words := le_self_pow wide.size.ne' 2
  exact mod_eq_of_lt (by omega)

theorem cache_replaces (wide : Wide g) {condition : MCacheReplFifo → ReplCycle → Prop}
    (path : Reached ((system g ispmOneBit).restrict fun s x => Sizes g s x ∧ condition s.cache.repl (replCycle g s x)) s) :
    Reached ((replacement g ispmOneBit).restrict condition) s.cache.repl ∧ Together s := by
  induction path with
  | start begun =>
    obtain ⟨state,_,hit,sizes,invalid,index,tagged,pos,free,_⟩ := begun
    refine ⟨.start ⟨hit,sizes,invalid,index,tagged,pos,free⟩,fun missed => absurd hit (by rw [missed]; decide),fun size => ?_⟩
    rw [state] at size
    cases size
  | @step s x _ admitted ih =>
    obtain ⟨path,together⟩ := ih
    obtain ⟨⟨issues,-,-⟩,sizes,holds⟩ := admitted
    exact ⟨.step (i := replCycle g s x) path ⟨cycle_admitted wide together issues sizes,holds⟩,together_step together issues⟩

instance decidableSizes (s : State) (x : Cycle) : Decidable (Sizes g s x) := inferInstanceAs (Decidable (_ → _))

instance decidableTagging (r : MCacheReplFifo) (x : ReplCycle) : Decidable (Tagging g r x) :=
  inferInstanceAs (Decidable (_ → _))

theorem miscounts {condition : MCacheReplFifo → ReplCycle → Prop} (wide : Wide g) (cycles : List Cycle)
    (visits : ((system g ispmOneBit).restrict fun s x => Sizes g s x ∧ condition s.cache.repl (replCycle g s x)).Visits
      (fun s => s.cache.repl.freeSpaceReg = free ∧
        s.cache.repl.freeSpaceReg+∑ i ∈ range g.methods, (s.cache.repl.sizeVec i : Int) ≠ g.words) (begin g) cycles) :
    ∃ r, Reached ((replacement g ispmOneBit).restrict condition) r ∧ r.freeSpaceReg = free ∧ ¬Accounted g r := by
  obtain ⟨s,path,space,wrong⟩ := (Reached.start (begin_starts g ispmOneBit _)).visits cycles visits
  exact ⟨_,(cache_replaces wide path).1,space,fun accounted => wrong accounted.space⟩

-- A method that fills the cache counts as a negative size.
def fills : List Cycle := fetch 32818 4

-- The last method is tagged while the unit passes the unused tags to free space for the one before, and its size is not
-- counted.
def hurried : List Cycle := overwrite ++ fetch 32850 1

theorem space_miscounted :
    (∃ r, Reached ((replacement ⟨3,16,1⟩ 16).restrict fun r x => x.ctrl.wTag = true → r.frees = false) r ∧
      r.freeSpaceReg = -16 ∧ ¬Accounted ⟨3,16,1⟩ r) ∧
    ∃ r, Reached ((replacement ⟨3,16,1⟩ 16).restrict fun _ x => x.ctrl.wTag = true → x.ctrl.wSize < 8) r ∧
      r.freeSpaceReg = -2 ∧ ¬Accounted ⟨3,16,1⟩ r := by
  have wide : Wide ⟨3,16,1⟩ := ⟨by decide,by decide,by decide⟩
  exact ⟨miscounts wide fills (by decide +kernel),miscounts wide hurried (by decide +kernel)⟩

theorem cache_space_accounted_evicted : ∃ r : MCacheReplFifo, r.freeSpaceReg = 4 ∧ r.sizeVec 1 = 2 ∧ r.sizeVec 2 = 2 ∧
    Accounted ⟨3,4,1⟩ r := by
  have wide : Wide ⟨3,4,1⟩ := ⟨by decide,by decide,by decide⟩
  obtain ⟨s,path,free,older,newer⟩ :=
    (Reached.start (begin_starts ⟨3,4,1⟩ 16 fun s x => Sizes ⟨3,4,1⟩ s x ∧ Tagging ⟨3,4,1⟩ s.cache.repl (replCycle ⟨3,4,1⟩ s x))).visits
      (p := fun s => s.cache.repl.freeSpaceReg = 4 ∧ s.cache.repl.sizeVec 1 = 2 ∧ s.cache.repl.sizeVec 2 = 2) overwrite
      (by decide +kernel)
  exact ⟨_,free,older,newer,cache_space_accounted ⟨3,4,1⟩ 16 (by decide) (cache_replaces wide path).1⟩
end Cache
end Patmos.MethodCache
