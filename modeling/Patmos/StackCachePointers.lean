import Patmos.StackCacheRefinement
namespace Patmos.StackCache
open Transition StackMemory

-- The stack operations with the memory left open: it takes a command and answers when and how it likes.
def Operates (g : StackGeometry) (c : StackCache) (x : StackCacheInput) : Prop :=
  c.stateReg = .idle → x.enaIn = true →
    match x.op with
    | .none => True
    | .ens | .free => Aligned g x.opOff
    | .res => Aligned g x.opOff ∧ x.opOff ≤ c.stackTopReg
    | .spill => Aligned g x.opOff ∧ x.opOff ≤ c.memTopReg
    | .setSt | .setMt => False

def operations (g : StackGeometry) : System StackCache StackCacheInput where
  start c := c.stateReg = .idle ∧ c.stackTopReg = c.memTopReg
  admits c x := Operates g c x
  next c x := c.next g x

def Consistent (g : StackGeometry) (m : System StackCache StackCacheInput) : Prop :=
  ∀ c, Reached m c → c.stateReg = .idle → c.stackTopReg ≤ c.memTopReg ∧ c.memTopReg-c.stackTopReg ≤ g.size

-- A spill is not longer than what the cache holds and is not answered ERR.
def Moderate (c : StackCache) (x : StackCacheInput) : Prop :=
  (c.stateReg = .idle → x.enaIn = true → x.op = .spill → x.opOff ≤ c.memTopReg-c.stackTopReg) ∧
    (c.stateReg = .waitSpill → x.toMemory.resp ≠ .err)

def Inside (g : StackGeometry) (c : StackCache) (top : Nat) : Prop := c.stackTopReg ≤ top ∧ top ≤ c.stackTopReg+g.size

-- While a spill runs only the top it will leave is inside.
def Bounded (g : StackGeometry) (c : StackCache) : Prop :=
  c.stackTopReg ≤ c.memTopReg ∧
    match c.stateReg with
    | .idle | .error => Inside g c c.memTopReg
    | .fill | .waitFill => Inside g c c.memTopReg ∧ Inside g c c.newMemTopReg
    | .spill | .holdSpill | .waitSpill => Inside g c (c.spillTarget g)

attribute [local simp] next stateNext stackTopNext memTopNext Inside spillTarget

section
variable {g : StackGeometry} {c : StackCache} {x : StackCacheInput}

theorem idle_bounded (state : c.stateReg = .idle) (inside : Inside g c c.memTopReg) (operates : Operates g c x)
    (moderate : Moderate c x) (runs : x.enaIn = true) : Bounded g (c.next g x) := by
  have legal := operates state runs
  unfold Inside at inside
  unfold Bounded Inside
  cases op : x.op with
  | none => simp [state,op,inside]
  | ens =>
    simp only [op,Aligned] at legal
    cases missing : c.stackAboveMem x with
    | false => simp [state,op,missing,inside]
    | true =>
      simp [state,runs,op,missing,stackTopInc,inside,legal]
  | free =>
    cases above : c.stackAboveMem x with
    | false =>
      have covered : ¬c.memTopReg-c.stackTopReg < x.opOff := of_decide_eq_false above
      simp only [next,stateNext,stackTopNext,memTopNext,state,runs,op,above,stackTopInc,if_true,Bool.false_eq_true,if_false]
      omega
    | true => simp [state,runs,op,above]
  | res =>
    cases spills : c.needsSpill g x with
    | false =>
      have short : ¬c.memTopReg-(c.stackTopReg-x.opOff) > g.size := of_decide_eq_false spills
      simp only [next,stateNext,stackTopNext,memTopNext,state,runs,op,spills,nextStackTop,if_true,Bool.false_eq_true,if_false]
      omega
    | true =>
      have lowered := Nat.le_add_right_of_le (k := x.opOff) inside.1
      simp [state,runs,op,spills,nextStackTop,lowered]
  | spill =>
    have held := moderate.1 state runs op
    have low : c.stackTopReg ≤ c.memTopReg-x.opOff := by omega
    have high := Nat.le_add_right_of_le (k := x.opOff) inside.2
    simp [state,runs,op,nextNewMemTop,inside.1,low,high]
  | setSt | setMt => simp [op] at legal

theorem busy_bounded (bounded : Bounded g c) (busy : c.stateReg ≠ .idle) (moderate : Moderate c x) (runs : x.enaIn = true) :
    Bounded g (c.next g x) := by
  obtain ⟨ordered,inside⟩ := bounded
  unfold Bounded
  cases state : c.stateReg with
  | idle => exact absurd state busy
  | error => by_cases last : c.burstCounter g = g.burst-1 <;> simp_all
  | fill => cases accepted : x.toMemory.cmdAccept <;> simp_all
  | waitFill =>
    cases resp : x.toMemory.resp with
    | null | fail | err => simp_all
    | dva =>
      by_cases last : c.burstCounter g = g.burst-1 <;> cases complete : c.fillingDone <;>
        simp_all
  | holdSpill => cases accepted : x.toMemory.cmdAccept <;> simp_all
  | spill =>
    by_cases last : c.burstCounter g = g.burst-1 <;> simp_all
  | waitSpill =>
    have sound := moderate.2 state
    cases complete : c.spillingDone <;> cases resp : x.toMemory.resp <;>
      simp_all

theorem bounded_step (bounded : Bounded g c) (operates : Operates g c x) (moderate : Moderate c x) : Bounded g (c.next g x) := by
  cases runs : x.enaIn with
  | false =>
    obtain ⟨ordered,inside⟩ := bounded
    unfold Bounded
    cases state : c.stateReg <;> simp_all
  | true =>
    by_cases state : c.stateReg = .idle
    · have inside := bounded.2
      rw [state] at inside
      exact idle_bounded state inside operates moderate runs
    · exact busy_bounded bounded state moderate runs
end

theorem pointers_consistent (g : StackGeometry) : Consistent g ((operations g).restrict Moderate) := by
  intro c path state
  have bounded : Bounded g c := by
    refine path.invariant (fun c begun => ?_) fun c x bounded admitted => bounded_step bounded admitted.1 admitted.2
    simp [Bounded,begun.1,begun.2]
  have inside := bounded.2
  rw [state] at inside
  exact ⟨bounded.1,Nat.sub_le_of_le_add (by rw [Nat.add_comm]; exact inside.2)⟩

def overspill : List StackCacheInput := [operate .spill 4,accept,accept,answer 0]

theorem memTop_below_stackTop : ¬∀ g : StackGeometry,Consistent g (operations g) := by
  intro consistent
  have path := (Reached.start (m := operations ⟨1,1⟩) (s := begin.cache) ⟨rfl,rfl⟩).run overspill
    ⟨fun _ _ => ⟨by decide,by decide⟩,fun state => absurd state (by decide),fun state => absurd state (by decide),
      fun state => absurd state (by decide),trivial⟩
  exact absurd (consistent ⟨1,1⟩ _ path (by decide +kernel)).1 (by decide +kernel)
end Patmos.StackCache
