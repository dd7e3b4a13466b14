import Patmos.BurstFault
import Patmos.MCache
import Patmos.StackCacheCycle
namespace Patmos.BurstErrors
open Transition BurstFault List Nat

def seen : OcpResp → Seen
  | .null | .fail => .nothing
  | .dva => .word
  | .err => .error

theorem seen_nothing (resp : r ≠ .fail) (none : seen r = .nothing) : r = .null := by
  cases r with
  | null => rfl
  | fail => exact absurd rfl resp
  | dva | err => cases none

theorem seen_word (word : seen r = .word) : r = .dva := by
  cases r with
  | dva => rfl
  | null | fail | err => cases word

theorem seen_error (error : seen r = .error) : r = .err := by
  cases r with
  | err => rfl
  | null | fail | dva => cases error

section MethodCache
open MCacheCtrl

structure MCacheCycle where
  hit : Bool
  ex : ExICache
  fe : FeICache
  slave : OcpBurstSlaveSignals 4

variable {g : MethodGeometry} {c : MCacheCtrl}

def mcache (g : MethodGeometry) : System MCacheCtrl MCacheCycle where
  start _ := True
  admits _ x := x.slave.resp ≠ .fail
  next c x := c.next g x.hit x.ex x.fe x.slave

-- A burst has been requested and no response to it has been registered.
structure MCacheAwaits (c : MCacheCtrl) : Prop where
  state : c.stateReg = .size ∨ c.stateReg = .transfer
  count : c.burstCntReg = 0
  quiet : c.ocpSlaveReg.resp = .null

def MCacheFills (n : Nat) (c : MCacheCtrl) : Prop :=
  (c.stateReg = .size ∨ c.stateReg = .transfer) ∧ c.burstCntReg = n ∧ c.ocpSlaveReg.resp ≠ .fail

theorem mcache_early (count : c.burstCntReg = n) (more : n+1 < g.burst) : c.lastBeat g = false := by
  exact decide_eq_false (by omega)

theorem mcache_fills (fills : MCacheFills n c) (more : n+1 < g.burst) (hit : Bool) :
    c.illMem g = false ∧ c.request g hit = none ∧ (c.stateNext g hit = .size ∨ c.stateNext g hit = .transfer) := by
  obtain ⟨state,count,-⟩ := fills
  have early := mcache_early count more
  refine ⟨by simp [illMem,early],?_,?_⟩
  · rcases state with state | state <;> simp [request,state,early]
  · rcases state with state | state
    · cases sized : c.sized g <;> simp [stateNext,state]
    · simp [stateNext,state,finishes,early]

attribute [local simp] mcache MCacheCtrl.next

def mcacheHandler (g : MethodGeometry) : Handler (mcache g) g.burst where
  seen c _ := seen c.ocpSlaveReg.resp
  signal c _ := c.illMem g
  receives := MCacheFills
  fails n c := c.stateReg = .error ∧ c.burstCntReg = n ∧ c.ocpSlaveReg.resp ≠ .fail
  receives_quiet fills _ more := (mcache_fills fills more false).1
  receives_nothing {n c x} fills admitted more none := by
    obtain ⟨healthy,request,state⟩ := mcache_fills fills more x.hit
    have silent := seen_nothing fills.2.2 none
    refine ⟨?_,?_,admitted⟩
    · simpa [healthy,silent] using state
    · simpa [silent,request] using fills.2.1
  receives_word {n c x} fills admitted more word := by
    obtain ⟨healthy,request,state⟩ := mcache_fills fills more x.hit
    have arrived := seen_word word
    have busy : c.stateReg ≠ .error := by rcases fills.1 with state | state <;> simp [state]
    refine ⟨?_,?_,admitted⟩
    · simpa [healthy,arrived] using state
    · simpa [arrived,request,fills.1,fills.2.1,busy] using mod_eq_of_lt more
  receives_error {n c x} fills admitted more error := by
    have healthy := (mcache_fills fills more x.hit).1
    have failed := seen_error error
    refine ⟨?_,?_,admitted⟩
    · rcases fills.1 with state | state <;> simp [healthy,failed,state]
    · simpa [failed,fills.2.1] using mod_eq_of_lt more
  leaves c := c.stateReg = .errorDec
  fails_quiet fails _ more := by simp [illMem,mcache_early fails.2.1 more]
  fails_next {n c x} fails admitted more := by
    obtain ⟨state,count,resp⟩ := fails
    have early := mcache_early count more
    have small : (n+1) % g.burst = n+1 := mod_eq_of_lt more
    refine ⟨?_,?_,admitted⟩
    · simp [illMem,early,stateNext,state]
    · have idle : c.request g x.hit = none := by simp [request,state,sized,arrives,fetching]
      cases now : c.ocpSlaveReg.resp with
      | fail => exact absurd now resp
      | null | dva | err => simp [state,now,idle,count,small,seen,Seen.beats]
  fails_last {n c x} fails _ last := by
    have signals : c.illMem g = true := by simp [illMem,lastBeat,fails.1,fails.2.1,← last]
    exact ⟨signals,if_pos signals⟩

theorem mcache_awaits {x : MCacheCycle} (asks : (c.request g x.hit).isSome = true) (steady : c.ocpSlaveReg.resp ≠ .err)
    (quiet : x.slave.resp = .null) : MCacheAwaits ((mcache g).next c x) := by
  have state : c.stateReg ≠ .error ∧ (c.stateNext g x.hit = .size ∨ c.stateNext g x.hit = .transfer) := by
    unfold request at asks
    split_ifs at asks with misses sized continues
    · simp [stateNext,misses]
    · have state : c.stateReg = .size := (of_decide_eq_true sized.1).1
      simp [stateNext,state]
    · have fetching := (of_decide_eq_true continues.1).1
      have state := (of_decide_eq_true fetching).1
      have unfinished : c.finishes g = false := decide_eq_false fun ends => by
        omega
      simp [stateNext,state,unfinished]
    · cases asks
  refine ⟨?_,?_,quiet⟩
  · simpa [illMem,state.1,steady] using state.2
  · simp [state.1,steady,asks]

-- Behind the signal the exception passes through the pipeline.
theorem mcache_recovers {rest : List MCacheCycle} (state : c.stateReg = .errorDec)
    (three : rest.length = 3) (silent : ∀ x ∈ rest, x.slave.resp = .null) :
    (mcacheHandler g).signals c rest = [false,false,false] ∧ ((mcache g).run c rest).stateReg = .idle ∧
      ((mcache g).run c rest).ocpSlaveReg.resp = .null := by
  obtain ⟨x,y,z,rfl⟩ := length_eq_three.mp three
  have z_silent := silent z (by simp)
  simp [Handler.signals,System.record,System.run,mcacheHandler,illMem,stateNext,state,z_silent]
end MethodCache

section InstructionCache
open ICacheCtrl

structure ICacheCycle where
  selCache : Bool
  hit : Bool
  fetchAddr : Nat
  slave : OcpBurstSlaveSignals 4

variable {g : Geometry} {c : ICacheCtrl}

-- No response comes before the command is accepted.
def icache (g : Geometry) : System ICacheCtrl ICacheCycle where
  start _ := True
  admits c x := x.slave.resp ≠ .fail ∧ (c.stateReg = .wait → x.slave.resp = .null)
  next c x := c.next g x.selCache x.hit x.fetchAddr x.slave

def ICacheFills (n : Nat) (c : ICacheCtrl) : Prop :=
  (c.stateReg = .transfer ∨ c.stateReg = .wait ∧ n = 0 ∧ c.ocpSlaveReg.resp = .null) ∧ c.burstCntReg = n ∧ c.fetchCntReg = n ∧
    c.ocpSlaveReg.resp ≠ .fail

def ICacheAwaits (c : ICacheCtrl) : Prop := ICacheFills 0 c ∧ c.ocpSlaveReg.resp = .null

theorem icache_transfers (fills : ICacheFills n c) (answered : c.ocpSlaveReg.resp ≠ .null) : c.stateReg = .transfer :=
  fills.1.resolve_right fun waits => answered waits.2.2

attribute [local simp] icache ICacheCtrl.next

def icacheHandler (g : Geometry) : Handler (icache g) g.words where
  seen c _ := seen c.ocpSlaveReg.resp
  signal c _ := c.illMem g
  receives := ICacheFills
  fails n c := c.stateReg = .error ∧ c.burstCntReg = n ∧ c.ocpSlaveReg.resp ≠ .fail
  leaves c := c.stateReg = .idle
  receives_quiet {n c x} fills _ _ := by
    rcases fills.1 with state | ⟨state,-⟩ <;> simp [illMem,state]
  receives_nothing {n c x} fills admitted more none := by
    obtain ⟨state,count,fetched,resp⟩ := fills
    have silent := seen_nothing resp none
    rcases state with state | ⟨state,rfl,-⟩
    · have inside : c.fetchCntReg < g.words := by omega
      refine ⟨.inl ?_,?_,?_,admitted.1⟩
      · simp [illMem,state,silent,stateNext,inside]
      · simp [state,silent,miss,refetch,arrives,count]
      · simp [state,silent,miss,arrives,fetched]
    · have quiet := admitted.2 state
      refine ⟨?_,?_,?_,admitted.1⟩
      · cases accept : x.slave.cmdAccept <;>
          simp [illMem,state,silent,stateNext,accept,quiet]
      · simp [state,silent,miss,refetch,arrives,count]
      · simp [state,silent,miss,arrives,fetched]
  receives_word {n c x} fills admitted more word := by
    have arrived := seen_word word
    have state := icache_transfers fills (by simp [arrived])
    obtain ⟨-,count,fetched,-⟩ := fills
    have inside : c.fetchCntReg < g.words := by omega
    have arrives : c.arrives g = true := by simp [arrives,state,inside,arrived]
    have single : c.refetch g = false := decide_eq_false fun again => by omega
    have room : n+1 < g.words*g.lines := more.trans_le (Nat.le_mul_of_pos_right _ g.lines_pos)
    refine ⟨.inl ?_,?_,?_,admitted.1⟩
    · simp [illMem,state,arrived,stateNext,inside]
    · simpa [state,arrived,miss,single,arrives,count] using mod_eq_of_lt more
    · simpa [state,miss,arrives,fetched] using mod_eq_of_lt room
  receives_error {n c x} fills admitted more error := by
    have failed := seen_error error
    have state := icache_transfers fills (by simp [failed])
    refine ⟨?_,?_,admitted.1⟩
    · simp [illMem,state,failed]
    · simpa [failed,fills.2.1] using mod_eq_of_lt more
  fails_quiet {n c x} fails _ more := by
    simp only [illMem,fails.2.1]
    exact decide_eq_false fun last => by omega
  fails_next {n c x} fails admitted more := by
    obtain ⟨state,count,resp⟩ := fails
    have early : n ≠ g.words-1 := by omega
    have small : (n+1) % g.words = n+1 := mod_eq_of_lt more
    refine ⟨?_,?_,admitted.1⟩
    · simp [illMem,stateNext,state,count,early]
    · cases now : c.ocpSlaveReg.resp with
      | fail => exact absurd now resp
      | null | dva | err =>
        simp [state,now,miss,refetch,arrives,count,small,seen,Seen.beats]
  fails_last {n c x} fails _ last := by
    have signals : c.illMem g = true := by simp [illMem,fails.1,fails.2.1,← last]
    exact ⟨signals,if_pos signals⟩

theorem icache_awaits {x : ICacheCycle} (misses : c.miss x.selCache x.hit = true) (steady : c.ocpSlaveReg.resp = .null)
    (quiet : x.slave.resp = .null) : ICacheAwaits ((icache g).next c x) := by
  obtain ⟨state,sel,hit⟩ := of_decide_eq_true misses
  refine ⟨⟨?_,?_,?_,?_⟩,quiet⟩
  · cases accept : x.slave.cmdAccept <;>
      simp [illMem,state,steady,stateNext,sel,hit,quiet]
  · simp [steady,misses]
  · simp [misses]
  · simp [quiet]
end InstructionCache

section Stack
open StackCache
variable {g : StackGeometry} {c d : StackCache}

-- The unit may be stalled before its command is accepted.
def stackCache (g : StackGeometry) : System StackCache StackCacheInput where
  start _ := True
  admits c x := x.toMemory.resp ≠ .fail ∧ (c.stateReg = .fill → x.toMemory.resp = .null) ∧ (x.enaIn = true ∨ c.stateReg = .fill)
  next c x := c.next g x

def StackFills (g : StackGeometry) (n : Nat) (c : StackCache) : Prop :=
  (c.stateReg = .waitFill ∨ c.stateReg = .fill ∧ n = 0) ∧ c.burstCounter g = n

theorem stack_transfers {x : StackCacheInput} (fills : StackFills g n c) (admitted : (stackCache g).admits c x)
    (answered : x.toMemory.resp ≠ .null) : c.stateReg = .waitFill :=
  fills.1.resolve_right fun waits => answered (admitted.2.1 waits.1)

theorem counter_next (moved : d.transferAddrReg = c.transferAddrReg+4) (count : c.burstCounter g = n) (more : n+1 < g.burst) :
    d.burstCounter g = n+1 := by
  rw [burstCounter,moved,add_div_right _ (by decide),← mod_add_mod,← burstCounter,count,mod_eq_of_lt more]

attribute [local simp] stackCache StackCache.next stateNext

def stackHandler (g : StackGeometry) : Handler (stackCache g) g.burst where
  seen _ x := seen x.toMemory.resp
  signal c x := c.illMem g x
  receives := StackFills g
  fails n c := c.stateReg = .error ∧ c.burstCounter g = n
  leaves c := c.stateReg = .idle
  receives_quiet {n c x} fills _ _ := by
    rcases fills.1 with state | ⟨state,-⟩ <;> simp [illMem,state]
  receives_nothing {n c x} fills admitted more none := by
    have silent := seen_nothing admitted.1 none
    obtain ⟨state | ⟨state,rfl⟩,count⟩ := fills
    · have runs := admitted.2.2.resolve_right (by simp [state])
      refine ⟨.inl ?_,?_⟩
      · simp [runs,state,silent]
      · simpa [burstCounter,runs,transferAddrNext,state,silent] using count
    · refine ⟨?_,?_⟩
      · cases runs : x.enaIn <;> cases accept : x.toMemory.cmdAccept <;>
          simp [runs,state,accept]
      · simpa [burstCounter,transferAddrNext,state] using count
  receives_word {n c x} fills admitted more word := by
    have arrived := seen_word word
    have state := stack_transfers fills admitted (by simp [arrived])
    have runs := admitted.2.2.resolve_right (by simp [state])
    have early : n ≠ g.burst-1 := by omega
    refine ⟨.inl ?_,counter_next ?_ fills.2 more⟩
    · simp [runs,state,arrived,fills.2,early]
    · simp [runs,transferAddrNext,state,arrived]
  receives_error {n c x} fills admitted more error := by
    have failed := seen_error error
    have state := stack_transfers fills admitted (by simp [failed])
    have runs := admitted.2.2.resolve_right (by simp [state])
    refine ⟨?_,counter_next ?_ fills.2 more⟩
    · simp [runs,state,failed]
    · simp [runs,transferAddrNext,state,failed]
  fails_quiet {n c x} fails _ more := by
    have early : n ≠ g.burst-1 := by omega
    simp [illMem,fails.1,fails.2,early]
  fails_next {n c x} fails admitted more := by
    obtain ⟨state,count⟩ := fails
    have early : n ≠ g.burst-1 := by omega
    have runs := admitted.2.2.resolve_right (by simp [state])
    refine ⟨by simp [runs,state,count,early],?_⟩
    cases now : x.toMemory.resp with
    | fail => exact absurd now admitted.1
    | null => simpa [burstCounter,runs,transferAddrNext,state,now,seen,Seen.beats] using count
    | dva | err => exact counter_next (by simp [runs,transferAddrNext,state,now]) count more
  fails_last {n c x} fails admitted last := by
    have final : n = g.burst-1 := by omega
    have runs := admitted.2.2.resolve_right (by simp [fails.1])
    exact ⟨by simp [illMem,fails.1,fails.2,final],
      by simp [runs,fails.1,fails.2,final]⟩

theorem stack_awaits {x : StackCacheInput} (state : c.stateReg = .idle) (runs : x.enaIn = true) (ensures : x.op = .ens)
    (fills : c.stackAboveMem x = true) : StackFills g 0 ((stackCache g).next c x) := by
  refine ⟨.inr ⟨?_,rfl⟩,?_⟩
  · simp [runs,state,ensures,fills]
  · have start : ((stackCache g).next c x).transferAddrReg = g.burstStart c.memTopReg := by
      simp [runs,transferAddrNext,state,ensures]
    rw [burstCounter,start,StackGeometry.burstStart,Nat.mul_left_comm,Nat.mul_div_cancel_left _ (by decide)]
    exact mul_mod_left _ _
end Stack

-- An error before the last beat, which follows without a gap, is signalled once: with the last beat where the port is
-- seen directly, in the next cycle where it is registered. The next miss starts at its first beat.
theorem burst_errors_end (faulty : Faulty burst before late last) :
    (∀ (g : MethodGeometry) (c : MCacheCtrl) (cycles rest : List MCacheCycle), g.burst = burst → MCacheAwaits c →
      cycles.map (fun x => seen x.slave.resp) = before ++ [late,last] → rest.length = 4 → (∀ x ∈ rest, x.slave.resp = .null) →
      (mcache g).Admits c (cycles ++ rest) →
        (mcache g).record (fun c _ => [c.illMem g]) c (cycles ++ rest) =
          replicate cycles.length false ++ [true,false,false,false] ∧
        ((mcache g).run c (cycles ++ rest)).stateReg = .idle ∧
        ∀ x, x.hit = false → x.slave.resp = .null → MCacheAwaits ((mcache g).run c (cycles ++ rest ++ [x]))) ∧
    (∀ (g : Geometry) (c : ICacheCtrl) (cycles : List ICacheCycle) (i : ICacheCycle), g.words = burst → ICacheAwaits c →
      cycles.map (fun x => seen x.slave.resp) = before ++ [late,last] → i.slave.resp = .null → (icache g).Admits c (cycles ++ [i]) →
        (icache g).record (fun c _ => [c.illMem g]) c (cycles ++ [i]) = replicate cycles.length false ++ [true] ∧
        ((icache g).run c (cycles ++ [i])).stateReg = .idle ∧
        ∀ x, x.selCache = true → x.hit = false → x.slave.resp = .null → ICacheAwaits ((icache g).run c (cycles ++ [i] ++ [x]))) ∧
    (∀ (g : StackGeometry) (c : StackCache) (cycles : List StackCacheInput), g.burst = burst → StackFills g 0 c →
      cycles.map (fun x => seen x.toMemory.resp) = before ++ [late,last] → (stackCache g).Admits c cycles →
        (stackCache g).record (fun c x => [c.illMem g x]) c cycles = replicate (cycles.length-1) false ++ [true] ∧
        ((stackCache g).run c cycles).stateReg = .idle ∧
        ∀ x, x.enaIn = true → x.op = .ens → ((stackCache g).run c cycles).stackAboveMem x = true →
          StackFills g 0 ((stackCache g).run c (cycles ++ [x]))) := by
  refine ⟨?_,?_,?_⟩
  · rintro g c cycles rest rfl awaits responses four silent admitted
    obtain ⟨i,later,rfl⟩ := exists_cons_of_length_eq_add_one four
    rw [append_cons] at admitted ⊢
    have sees : ∀ c x, (mcacheHandler g).seen c x = seen c.ocpSlaveReg.resp := fun _ _ => rfl
    obtain ⟨signals,leaves⟩ := faulty.signals_registered sees (fun _ _ => rfl)
      ⟨awaits.state,awaits.count,by simp [awaits.quiet]⟩ (by simp [awaits.quiet,seen]) responses
      ((System.admits_append ..).mp admitted).1
    obtain ⟨after,idle,quiet⟩ := mcache_recovers leaves (succ.inj four) fun x among => silent x (mem_cons_of_mem i among)
    rw [← (mcache g).run_append] at idle quiet
    refine ⟨?_,idle,fun x misses request => ?_⟩
    · rw [(mcache g).record_append]
      exact (congrArg₂ List.append signals after).trans (List.append_assoc ..)
    · have requests : (((mcache g).run c (cycles ++ [i] ++ later)).request g x.hit).isSome = true := by
        rw [MCacheCtrl.request,if_pos ⟨idle,by simp [misses]⟩]
        rfl
      rw [(mcache g).run_append]
      exact mcache_awaits requests (quiet ▸ by decide) request
  · rintro g c cycles i rfl ⟨fills,quiet⟩ responses silent admitted
    have sees : ∀ c x, (icacheHandler g).seen c x = seen c.ocpSlaveReg.resp := fun _ _ => rfl
    obtain ⟨signals,idle⟩ := faulty.signals_registered sees (fun _ _ => rfl) fills (by simp [quiet,seen]) responses admitted
    refine ⟨signals,idle,fun x sel misses request => ?_⟩
    have steady : ((icache g).run c (cycles ++ [i])).ocpSlaveReg.resp = .null := by
      rw [(icache g).run_append]
      exact silent
    rw [(icache g).run_append]
    exact icache_awaits (decide_eq_true ⟨idle,sel,by simp [misses]⟩) steady request
  · rintro g c cycles rfl fills responses admitted
    have sees : ∀ c x, (stackHandler g).seen c x = seen x.toMemory.resp := fun _ _ => rfl
    obtain ⟨signals,idle⟩ := faulty.signals_direct sees fills admitted responses
    refine ⟨signals,idle,fun x runs ensures above => ?_⟩
    rw [(stackCache g).run_append]
    exact stack_awaits idle runs ensures above

section Bursts
def mcacheCycle (resp : OcpResp) : MCacheCycle := ⟨false,⟨false,0,0⟩,⟨0,0⟩,.answer resp⟩
def icacheCycle (resp : OcpResp) : ICacheCycle := ⟨true,false,0,.answer resp⟩
def stackCycle (resp : OcpResp) : StackCacheInput := ⟨true,.none,0,0,⟨.idle,0,fun _ => 0,fun _ => false⟩,.answer resp,fun _ => 0⟩

def mcacheBegin : MCacheCtrl := ⟨.size,.idle,0,0,0,0,1,0,0,.quiet⟩
def icacheBegin : ICacheCtrl := ⟨.transfer,0,0,0,.quiet⟩
def stackBegin : StackCache := ⟨.waitFill,false,0,0,0,8,fun _ _ => 0,fun _ => 0,0,.null⟩

instance (g : MethodGeometry) (c : MCacheCtrl) (x : MCacheCycle) : Decidable ((mcache g).admits c x) :=
  inferInstanceAs (Decidable (_ ≠ _))

instance (g : Geometry) (c : ICacheCtrl) (x : ICacheCycle) : Decidable ((icache g).admits c x) :=
  inferInstanceAs (Decidable (_ ∧ (_ → _)))

instance (g : StackGeometry) (c : StackCache) (x : StackCacheInput) : Decidable ((stackCache g).admits c x) :=
  inferInstanceAs (Decidable (_ ∧ (_ → _) ∧ (_ ∨ _)))

theorem burst_errors_end_pair : Faulty 2 [] .error .word ∧
    (mcache ⟨2,1,1⟩).record (fun c _ => [c.illMem ⟨2,1,1⟩]) mcacheBegin
      ([.err,.dva].map mcacheCycle ++ [.null,.null,.null,.null].map mcacheCycle) = [false,false,true,false,false,false] ∧
    (icache ⟨1,1⟩).record (fun c _ => [c.illMem ⟨1,1⟩]) icacheBegin ([.err,.dva].map icacheCycle ++ [icacheCycle .null]) =
      [false,false,true] ∧
    (stackCache ⟨2,1⟩).record (fun c x => [c.illMem ⟨2,1⟩ x]) stackBegin ([.err,.dva].map stackCycle) = [false,true] := by
  have faulty : Faulty 2 [] .error .word := by decide
  obtain ⟨method,instruction,stack⟩ := burst_errors_end faulty
  have method := method ⟨2,1,1⟩ mcacheBegin ([.err,.dva].map mcacheCycle) ([.null,.null,.null,.null].map mcacheCycle) rfl
    ⟨.inl rfl,rfl,rfl⟩ rfl rfl (by decide) (by decide)
  have instruction := instruction ⟨1,1⟩ icacheBegin ([.err,.dva].map icacheCycle) (icacheCycle .null) rfl
    ⟨⟨.inl rfl,rfl,rfl,by decide⟩,rfl⟩ rfl rfl (by decide)
  have stack := stack ⟨2,1⟩ stackBegin ([.err,.dva].map stackCycle) rfl ⟨.inl rfl,rfl⟩ rfl (by decide)
  exact ⟨faulty,method.1,instruction.1,stack.1⟩

-- An error in the last beat alone is never signalled, and one before a gap is signalled before the last response.
theorem burst_errors_missed :
    ((∀ k, (mcache ⟨2,1,1⟩).record (fun c _ => [c.illMem ⟨2,1,1⟩]) mcacheBegin
        ([.dva,.err,.null].map mcacheCycle ++ replicate k (mcacheCycle .null)) = replicate (3+k) false) ∧
      (mcache ⟨2,1,1⟩).record (fun c _ => [c.illMem ⟨2,1,1⟩]) mcacheBegin ([.err,.null,.null,.dva].map mcacheCycle) =
        [false,false,true,false]) ∧
    ((∀ k, (icache ⟨1,1⟩).record (fun c _ => [c.illMem ⟨1,1⟩]) icacheBegin
        ([.dva,.err,.null].map icacheCycle ++ replicate k (icacheCycle .null)) = replicate (3+k) false) ∧
      (icache ⟨1,1⟩).record (fun c _ => [c.illMem ⟨1,1⟩]) icacheBegin ([.err,.null,.null,.dva].map icacheCycle) =
        [false,false,true,false]) ∧
    (∀ k, (stackCache ⟨2,1⟩).record (fun c x => [c.illMem ⟨2,1⟩ x]) stackBegin
        ([.dva,.err].map stackCycle ++ replicate k (stackCycle .null)) = replicate (2+k) false) ∧
    (stackCache ⟨2,1⟩).record (fun c x => [c.illMem ⟨2,1⟩ x]) stackBegin ([.err,.null,.dva].map stackCycle) = [false,true,false] := by
  refine ⟨⟨fun k => ?_,by decide⟩,⟨fun k => ?_,by decide⟩,fun k => ?_,by decide⟩
  · have silent : ∀ c, (mcacheHandler ⟨2,1,1⟩).fails 0 c → c.ocpSlaveReg.resp = .null → (mcache ⟨2,1,1⟩).admits c (mcacheCycle .null) ∧
        (mcacheHandler ⟨2,1,1⟩).seen c (mcacheCycle .null) = .nothing ∧
        ((mcache ⟨2,1,1⟩).next c (mcacheCycle .null)).ocpSlaveReg.resp = .null :=
      fun _ _ quiet => ⟨nofun,congrArg seen quiet,rfl⟩
    rw [System.record_append,replicate_add]
    exact congrArg _ ((mcacheHandler ⟨2,1,1⟩).signals_never silent ⟨rfl,rfl,by decide⟩ rfl (by decide) k)
  · have silent : ∀ c, (icacheHandler ⟨1,1⟩).fails 0 c → c.ocpSlaveReg.resp = .null → (icache ⟨1,1⟩).admits c (icacheCycle .null) ∧
        (icacheHandler ⟨1,1⟩).seen c (icacheCycle .null) = .nothing ∧
        ((icache ⟨1,1⟩).next c (icacheCycle .null)).ocpSlaveReg.resp = .null :=
      fun _ _ quiet => ⟨⟨nofun,fun _ => rfl⟩,congrArg seen quiet,rfl⟩
    rw [System.record_append,replicate_add]
    exact congrArg _ ((icacheHandler ⟨1,1⟩).signals_never silent ⟨rfl,rfl,by decide⟩ rfl (by decide) k)
  · have silent : ∀ c, (stackHandler ⟨2,1⟩).fails 0 c → True → (stackCache ⟨2,1⟩).admits c (stackCycle .null) ∧
        (stackHandler ⟨2,1⟩).seen c (stackCycle .null) = .nothing ∧ True :=
      fun _ _ _ => ⟨⟨nofun,fun _ => rfl,.inl rfl⟩,rfl,trivial⟩
    rw [System.record_append,replicate_add]
    exact congrArg _ ((stackHandler ⟨2,1⟩).signals_never silent ⟨rfl,rfl⟩ trivial (by decide) k)
end Bursts
end Patmos.BurstErrors
