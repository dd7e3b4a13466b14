import Patmos.Sha256
namespace Patmos.Sha256
open Sha2

theorem rotateRight_eq (data : BitVec 32) (amt : Nat) (inside : amt < 32) : rotateRight data amt = data.rotateRight amt := by
  apply BitVec.eq_of_getLsbD_eq
  intro i low
  rw [rotateRight,BitVec.getLsbD_setWidth,BitVec.getLsbD_append,
    BitVec.getLsbD_rotateRight,Nat.mod_eq_of_lt inside]
  by_cases below : i < 32-amt
  · simp [below,low]
  · have within : i-(32-amt) < amt := by omega
    simp [below,within]

theorem s0_eq (data : BitVec 32) : s0 data = smallSigma0 data := by
  rw [s0,smallSigma0,rotateRight_eq _ _ (by decide),rotateRight_eq _ _ (by decide)]

theorem s1_eq (data : BitVec 32) : s1 data = smallSigma1 data := by
  rw [s1,smallSigma1,rotateRight_eq _ _ (by decide),rotateRight_eq _ _ (by decide)]

theorem e0_eq (data : BitVec 32) : e0 data = bigSigma0 data := by
  rw [e0,bigSigma0,rotateRight_eq _ _ (by decide),rotateRight_eq _ _ (by decide),rotateRight_eq _ _ (by decide)]

theorem e1_eq (data : BitVec 32) : e1 data = bigSigma1 data := by
  rw [e1,bigSigma1,rotateRight_eq _ _ (by decide),rotateRight_eq _ _ (by decide),rotateRight_eq _ _ (by decide)]

theorem roundConsts_eq : roundConsts = constants := by decide

variable {u : Sha256} {message : Nat → BitVec 32} {hash : Words} {i : Nat}

-- The words that have gone through the pipeline of the expansion before word i.
structure Expanded (u : Sha256) (message : Nat → BitVec 32) (i : Nat) : Prop where
  taps : ∀ j < 13, j < i → u.wt j = schedule message (i-1-j)
  first : ∀ t, i = t+14 → u.wx = schedule message t+smallSigma0 (schedule message (t+1))
  second : ∀ t, i = t+15 → u.wy = schedule message t+smallSigma0 (schedule message (t+1))+schedule message (t+9)
  third : ∀ t, i = t+16 → u.wz = schedule message i

theorem expanded_zero (u : Sha256) (message : Nat → BitVec 32) : Expanded u message 0 := by
  constructor <;> intros <;> omega

theorem w0_schedule (expanded : Expanded u message i) (index : u.idxReg = i)
    (stored : ∀ k < 16, u.msg u.ShaBufferReg k = message k) : u.w0 = schedule message i := by
  unfold w0
  rw [index]
  by_cases few : i < 16
  · rw [if_pos few,msgRdData,index,Nat.mod_eq_of_lt few,stored i few,schedule_first few]
  · obtain ⟨t,rfl⟩ := Nat.exists_eq_add_of_le' (Nat.le_of_not_lt few)
    rw [if_neg few,expanded.third t rfl]

theorem expand_expanded (expanded : Expanded u message i) (shown : u.w0 = schedule message i) :
    Expanded u.expand message (i+1) := by
  have tap (j : Nat) (few : j < 13) (seen : j < i) := expanded.taps j few seen
  constructor
  · intro j few seen
    show (if j = 0 then u.w0 else u.wt (j-1)) = _
    cases j with
    | zero => rw [if_pos rfl,shown,Nat.add_sub_cancel,Nat.sub_zero]
    | succ j =>
      rw [if_neg (Nat.succ_ne_zero j),Nat.add_sub_cancel,tap j (by omega) (by omega)]
      congr 1
      omega
  · intro t now
    show u.wt 12+s0 (u.wt 11) = _
    rw [tap 12 (by decide) (by omega),tap 11 (by decide) (by omega),s0_eq]
    congr 3 <;> omega
  · intro t now
    show u.wx+u.wt 4 = _
    rw [expanded.first t (by omega),tap 4 (by decide) (by omega)]
    congr 2
    omega
  · intro t now
    show u.wy+s1 (u.wt 0) = _
    rw [expanded.second t (by omega),tap 0 (by decide) (by omega),s1_eq,now,schedule_later,show i-1-0 = t+14 by omega]
    ac_rfl

theorem expand_pipe (shown : u.w0 = schedule message i) (index : u.idxReg = i) (few : i < 64) :
    u.expand.pipeReg = schedule message i+constant i := by
  show u.w0+roundConsts.getD (u.idxReg % 64) 0#32 = _
  rw [shown,index,Nat.mod_eq_of_lt few]
  rfl

theorem expand_vars (pipe : u.pipeReg = schedule message t+constant t) :
    u.expand.vars = round u.vars (constant t) (schedule message t) := by
  have temp : u.temp1 = u.vars.h+bigSigma1 u.vars.e+choose u.vars.e u.vars.f u.vars.g+constant t+schedule message t := by
    rw [temp1,e1_eq,pipe,BitVec.add_comm (schedule message t),← BitVec.add_assoc]
    rfl
  have other : u.temp2 = bigSigma0 u.vars.a+majority u.vars.a u.vars.b u.vars.c := by
    rw [temp2,e0_eq]
    rfl
  show Words.mk _ _ _ _ _ _ _ _ = round _ _ _
  rw [temp,other]
  rfl

structure Compressing (u : Sha256) (hash : Words) (message : Nat → BitVec 32) (t : Nat) : Prop where
  index : u.idxReg = t+1
  expanded : Expanded u message (t+1)
  vars : u.vars = rounds message hash t
  pipe : u.pipeReg = schedule message t+constant t

section Steps
variable (stored : ∀ k < 16, u.msg u.ShaBufferReg k = message k)
include stored

theorem start_compressing (state : u.stateReg = .start) (index : u.idxReg = 0) :
    Compressing (u.compression u.expand) u.hash message 0 := by
  have shown := w0_schedule (expanded_zero u message) index stored
  have expanded := expand_expanded (expanded_zero u message) shown
  simp only [compression,state,index]
  exact ⟨rfl,⟨expanded.taps,expanded.first,expanded.second,expanded.third⟩,rfl,expand_pipe shown index (by decide)⟩

theorem compress_compressing (state : u.stateReg = .compress) (compressing : Compressing u hash message t) (few : t+1 < 64) :
    Compressing (u.compression u.expand) hash message (t+1) := by
  have shown := w0_schedule compressing.expanded compressing.index stored
  have expanded := expand_expanded compressing.expanded shown
  have small : (t+1+1) % 2^7 = t+1+1 := Nat.mod_eq_of_lt (by omega)
  simp only [compression,state]
  refine ⟨?_,⟨expanded.taps,expanded.first,expanded.second,expanded.third⟩,?_,expand_pipe shown compressing.index few⟩
  · rw [compressing.index,small]
  · rw [expand_vars compressing.pipe,compressing.vars]
    rfl

omit stored in
theorem compress_last (state : u.stateReg = .compress) (compressing : Compressing u hash message 63) :
    (u.compression u.expand).vars = rounds message hash 64 := by
  simp only [compression,state]
  rw [expand_vars compressing.pipe,compressing.vars]
  rfl
end Steps
end Patmos.Sha256
