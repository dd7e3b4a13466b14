import Mathlib.Data.Int.ModEq
import Patmos.Rtc
namespace Patmos.Rtc
open Transition

section
variable (r : Rtc) (ppsDuration : Nat) (writes : List Ptp.RtcWrite) (inputs : Nat → RegisterCommand)

-- The time in half nanoseconds. The seconds start again after 2^32.
def time : Int := r.secTickReg.toNat*(2*10^9)+r.nsTickReg.toNat
def period : Int := 2^32*(2*10^9)

def Quiet : Prop := r.updateSecReg = false ∧ r.updateNsReg = false

def command (w : Ptp.RtcWrite) : RegisterCommand := ⟨.wr,w.addr.setWidth 32,w.data⟩

-- The commands of a list, one in a cycle, and then the others.
def preceded (first : List RegisterCommand) (inputs : Nat → RegisterCommand) (t : Nat) : RegisterCommand :=
  (first[t]?).getD (inputs (t-first.length))

def ran : Nat → Rtc := (system 0 ppsDuration).states r inputs

-- From some cycle on nothing is left to correct, and the time differs by the amount from that of the same clock without
-- the writes.
def Adjusts (amount : Int) : Prop :=
  ∃ n, ∀ t ≥ n,
    (r.ran ppsDuration (preceded (writes.map command) inputs) t).nsOffsetReg = 0 ∧
    (r.ran ppsDuration (preceded (writes.map command) inputs) t).time ≡
      (r.ran ppsDuration (preceded (writes.map fun _ => rest) inputs) t).time+amount [ZMOD period]

-- The cycle in which the seconds start again.
def Wraps : Prop := r.second = true ∧ r.secTickReg.toNat+1 = 2^32

structure Converges (states : Nat → Rtc) : Prop where
  nearer : ∀ t, (states t).nsOffsetReg.toInt ≠ 0 →
    (states (t+1)).nsOffsetReg.toInt.natAbs < (states t).nsOffsetReg.toInt.natAbs
  settled : ∀ t ≥ 10^6, (states t).nsOffsetReg.toInt = 0
  sign : ∀ t, (0 ≤ (states 0).nsOffsetReg.toInt → 0 ≤ (states t).nsOffsetReg.toInt) ∧
    ((states 0).nsOffsetReg.toInt ≤ 0 → (states t).nsOffsetReg.toInt ≤ 0)
  grows : ∀ t, ¬(states t).Wraps → (states t).time ≤ (states (t+1)).time ∧
    (states (t+1)).time-(states t).time = 25+((states (t+1)).nsOffsetReg.toInt-(states t).nsOffsetReg.toInt)
end

theorem correction_bounds (offset : Int) : -25 ≤ correction offset ∧ correction offset ≤ 25 := by
  simp only [correction,timeStep,Int.reduceTDiv]
  omega

theorem correction_nearer (inside : offset.natAbs ≤ 1000000) (left : offset ≠ 0) :
    (offset+correction offset).natAbs < offset.natAbs := by
  simp only [correction,timeStep,milliInNano,microInNano,hundredNano,fiftyNano,Int.reduceTDiv]
  omega

theorem correction_sign (offset : Int) :
    (0 ≤ offset → 0 ≤ offset+correction offset) ∧ (offset ≤ 0 → offset+correction offset ≤ 0) := by
  simp only [correction,timeStep,milliInNano,microInNano,hundredNano,fiftyNano,Int.reduceTDiv]
  omega

section Step
variable {r : Rtc} (ppsDuration : Nat) (x : RegisterCommand)

theorem correctionStep_toInt (r : Rtc) : r.correctionStep.toInt = correction r.nsOffsetReg.toInt := by
  obtain ⟨low,high⟩ := correction_bounds r.nsOffsetReg.toInt
  unfold correctionStep
  rw [BitVec.toInt_ofInt]
  apply Int.bmod_eq_of_le
  · norm_num
    omega
  · norm_num
    omega

theorem nsIncrement_toNat (r : Rtc) : (r.nsIncrement.toNat : Int) = 25+correction r.nsOffsetReg.toInt := by
  obtain ⟨low,high⟩ := correction_bounds r.nsOffsetReg.toInt
  unfold nsIncrement correctionStep
  rw [timeStep]
  norm_num
  omega

theorem time_step (quiet : r.Quiet) : ∃ wraps : Nat, (¬r.Wraps → wraps = 0) ∧
    (r.next ppsDuration x).time+period*wraps = r.time+(25+correction r.nsOffsetReg.toInt) := by
  obtain ⟨noSec,noNs⟩ := quiet
  have step := r.nsIncrement_toNat
  obtain ⟨low,high⟩ := correction_bounds r.nsOffsetReg.toInt
  have value : secInNano.toNat = 2*10^9 := by decide
  have moved : r.nextNano.toNat = (r.nsTickReg.toNat+r.nsIncrement.toNat) % 2^33 := BitVec.toNat_add _ _
  rw [← step]
  cases full : r.second with
  | true =>
    have reached : 2*10^9 ≤ r.nsTickReg.toNat := by
      rw [← value]
      simpa [second,BitVec.le_def] using full
    have tick : (r.next ppsDuration x).nsTickReg.toNat = r.nsTickReg.toNat+r.nsIncrement.toNat-2*10^9 := by
      show r.nsTickNext.toNat = _
      rw [nsTickNext,noNs,full]
      show (r.nextNano-secInNano).toNat = _
      rw [BitVec.toNat_sub]
      omega
    have sec : (r.next ppsDuration x).secTickReg.toNat = (r.secTickReg.toNat+1) % 2^32 := by
      show r.secTickNext.toNat = _
      rw [secTickNext,rollover,noNs,full]
      exact BitVec.toNat_add _ _
    unfold time period
    refine ⟨(r.secTickReg.toNat+1)/2^32,fun goes => ?_,by omega⟩
    have inside := r.secTickReg.isLt
    have last : r.secTickReg.toNat+1 ≠ 2^32 := fun last => goes ⟨full,last⟩
    omega
  | false =>
    have below : r.nsTickReg.toNat < 2*10^9 := by
      rw [← value]
      simpa [second,BitVec.le_def] using full
    have tick : (r.next ppsDuration x).nsTickReg.toNat = r.nsTickReg.toNat+r.nsIncrement.toNat := by
      show r.nsTickNext.toNat = _
      rw [nsTickNext,noNs,full]
      show r.nextNano.toNat = _
      omega
    have sec : (r.next ppsDuration x).secTickReg = r.secTickReg := by
      show r.secTickNext = _
      rw [secTickNext,rollover,noNs,noSec,full]
      rfl
    refine ⟨0,fun _ => rfl,?_⟩
    unfold time
    rw [tick,sec]
    push_cast
    ring

theorem time_goes (quiet : r.Quiet) : (r.next ppsDuration x).time ≡ r.time+(25+correction r.nsOffsetReg.toInt) [ZMOD period] := by
  obtain ⟨wraps,_,moved⟩ := time_step ppsDuration x quiet
  rw [Int.modEq_iff_dvd,← moved,add_sub_cancel_left]
  exact dvd_mul_right period wraps

theorem offset_goes (quiet : r.Quiet) (kept : r.writes 0x20 = false) :
    (r.next ppsDuration x).nsOffsetReg.toInt = r.nsOffsetReg.toInt+correction r.nsOffsetReg.toInt := by
  have next : (r.next ppsDuration x).nsOffsetReg = r.nsOffsetReg+r.correctionStep := by
    show r.nsOffsetNext = _
    rw [nsOffsetNext,kept,quiet.2]
    rfl
  have low := BitVec.le_toInt r.nsOffsetReg
  have high := BitVec.toInt_lt (x := r.nsOffsetReg)
  rw [next,BitVec.toInt_add,correctionStep_toInt]
  apply Int.bmod_eq_of_le
  · simp only [correction,timeStep,microInNano,hundredNano,fiftyNano,Int.reduceTDiv]
    norm_num at low high ⊢
    omega
  · simp only [correction,timeStep,microInNano,hundredNano,fiftyNano,Int.reduceTDiv]
    norm_num at low high ⊢
    omega

theorem writes_command (other : r.masterReg.cmd ≠ .wr) (offset : BitVec 6) : r.writes offset = false := by
  simp [writes,other]

theorem quiet_written (written : r.writes 0x20 = true) : (r.next ppsDuration x).Quiet := by
  obtain ⟨_,place⟩ := of_decide_eq_true written
  refine ⟨decide_eq_false fun other => ?_,decide_eq_false fun other => ?_⟩
  all_goals
    rw [place] at other
    exact absurd other.2 (by decide)

theorem offset_written (written : r.writes 0x20 = true) :
    (r.next ppsDuration x).nsOffsetReg.toInt = r.masterReg.data.toInt := by
  show r.nsOffsetNext.toInt = _
  rw [nsOffsetNext,written]
  exact BitVec.toInt_signExtend_of_le (by decide)

theorem quiet_next (other : r.masterReg.cmd ≠ .wr) : (r.next ppsDuration x).Quiet :=
  ⟨writes_command other 0x04,writes_command other 0x00⟩
end Step

structure Correcting (r : Rtc) : Prop where
  quiet : r.Quiet
  other : r.masterReg.cmd ≠ .wr

section Run
variable {r : Rtc} {inputs : Nat → RegisterCommand} (ppsDuration : Nat)

section
variable (correcting : r.Correcting) (reads : ∀ t, (inputs t).cmd ≠ .wr)
include correcting reads

theorem ran_correcting (t : Nat) : (r.ran ppsDuration inputs t).Correcting := by
  induction t with
  | zero => exact correcting
  | succ t ih => exact ⟨quiet_next ppsDuration (inputs t) ih.other,reads t⟩

theorem ran_offset (t : Nat) : (r.ran ppsDuration inputs (t+1)).nsOffsetReg.toInt =
    (r.ran ppsDuration inputs t).nsOffsetReg.toInt+correction (r.ran ppsDuration inputs t).nsOffsetReg.toInt := by
  have now := ran_correcting ppsDuration correcting reads t
  exact offset_goes ppsDuration (inputs t) now.quiet (writes_command now.other 0x20)

theorem ran_balance (t : Nat) : (r.ran ppsDuration inputs t).time-(r.ran ppsDuration inputs t).nsOffsetReg.toInt ≡
      r.time-r.nsOffsetReg.toInt+25*t [ZMOD period] := by
  induction t with
  | zero =>
    rw [Nat.cast_zero,mul_zero,add_zero]
    exact Int.ModEq.refl _
  | succ t ih =>
    have moved := time_goes ppsDuration (inputs t) (ran_correcting ppsDuration correcting reads t).quiet
    show ((r.ran ppsDuration inputs t).next ppsDuration (inputs t)).time-
      (r.ran ppsDuration inputs (t+1)).nsOffsetReg.toInt ≡ _ [ZMOD period]
    rw [ran_offset ppsDuration correcting reads]
    generalize correction (r.ran ppsDuration inputs t).nsOffsetReg.toInt = step at moved
    calc _ ≡ (r.ran ppsDuration inputs t).time+(25+step)-((r.ran ppsDuration inputs t).nsOffsetReg.toInt+step) [ZMOD period] :=
          moved.sub_right _
      _ = (r.ran ppsDuration inputs t).time-(r.ran ppsDuration inputs t).nsOffsetReg.toInt+25 := by ring
      _ ≡ r.time-r.nsOffsetReg.toInt+25*t+25 [ZMOD period] := ih.add_right 25
      _ = r.time-r.nsOffsetReg.toInt+25*((t+1 : Nat) : Int) := by push_cast; ring

theorem ran_zero (done : r.nsOffsetReg.toInt = 0) (t : Nat) : (r.ran ppsDuration inputs t).nsOffsetReg.toInt = 0 := by
  induction t with
  | zero => exact done
  | succ t ih =>
    rw [ran_offset ppsDuration correcting reads,ih]
    rfl

theorem ran_settles (inside : r.nsOffsetReg.toInt.natAbs ≤ 1000000) (t : Nat) :
    (r.ran ppsDuration inputs t).nsOffsetReg.toInt.natAbs ≤ r.nsOffsetReg.toInt.natAbs-t := by
  induction t with
  | zero => exact le_of_eq rfl
  | succ t ih =>
    rw [ran_offset ppsDuration correcting reads]
    by_cases done : (r.ran ppsDuration inputs t).nsOffsetReg.toInt = 0
    · rw [done]
      exact Nat.zero_le _
    · have nearer := correction_nearer (by omega) done
      omega

theorem ran_converges (inside : r.nsOffsetReg.toInt.natAbs ≤ 1000000) : Converges (r.ran ppsDuration inputs) where
  nearer t left := by
    have settles := ran_settles ppsDuration correcting reads inside t
    rw [ran_offset ppsDuration correcting reads]
    exact correction_nearer (by omega) left
  settled t enough := by
    have settles := ran_settles ppsDuration correcting reads inside t
    omega
  sign t := by
    induction t with
    | zero => exact ⟨id,id⟩
    | succ t ih =>
      obtain ⟨above,below⟩ := correction_sign (r.ran ppsDuration inputs t).nsOffsetReg.toInt
      rw [ran_offset ppsDuration correcting reads]
      exact ⟨above ∘ ih.1,below ∘ ih.2⟩
  grows t goes := by
    obtain ⟨wraps,none,moved⟩ := time_step ppsDuration (inputs t) (ran_correcting ppsDuration correcting reads t).quiet
    rw [none goes,Nat.cast_zero,mul_zero,add_zero] at moved
    have bounds := correction_bounds (r.ran ppsDuration inputs t).nsOffsetReg.toInt
    rw [ran_offset ppsDuration correcting reads]
    change (r.ran ppsDuration inputs (t+1)).time = _ at moved
    omega
end

theorem ran_preceded (r : Rtc) (first : RegisterCommand) (inputs : Nat → RegisterCommand) (t : Nat) :
    r.ran ppsDuration (preceded [first] inputs) (t+1) = (r.next ppsDuration first).ran ppsDuration inputs t :=
  System.states_shift _ _ _ _

theorem ran_first (r : Rtc) (inputs : Nat → RegisterCommand) (t : Nat) :
    r.ran ppsDuration inputs (t+1) = (r.next ppsDuration (inputs 0)).ran ppsDuration (fun u => inputs (u+1)) t :=
  System.states_shift _ _ _ _
end Run

section Write
variable {r : Rtc} {x : RegisterCommand} (ppsDuration : Nat) (value : BitVec 32)

def adjustment : RegisterCommand := command ⟨0x20,value⟩

theorem adjustment_writes : (r.next ppsDuration (adjustment value)).writes 0x20 = true := rfl

theorem time_idle (quiet : r.Quiet) (clear : r.nsOffsetReg.toInt = 0) : (r.next ppsDuration x).time ≡ r.time+25 [ZMOD period] := by
  have moved := time_goes ppsDuration x quiet
  rw [clear] at moved
  exact moved

-- The register counts half nanoseconds too, so half of the nanoseconds are corrected.
theorem adjusts_half {inputs : Nat → RegisterCommand} (correcting : r.Correcting) (clear : r.nsOffsetReg.toInt = 0)
    (reads : ∀ t, (inputs t).cmd ≠ .wr) (inside : value.toInt.natAbs ≤ 1000000) :
    r.Adjusts ppsDuration [⟨0x20,value⟩] inputs (-value.toInt) := by
  have written : (r.next ppsDuration (adjustment value)).nsOffsetReg.toInt = 0 := by
    have offset := offset_goes ppsDuration (adjustment value) correcting.quiet (writes_command correcting.other 0x20)
    rw [clear] at offset
    exact offset
  have first : (r.next ppsDuration (adjustment value)).time ≡ r.time+25 [ZMOD period] :=
    time_idle ppsDuration correcting.quiet clear
  have second : ((r.next ppsDuration (adjustment value)).next ppsDuration (inputs 0)).time ≡ r.time+25+25 [ZMOD period] :=
    (time_idle ppsDuration (quiet_next ppsDuration (adjustment value) correcting.other) written).trans (first.add_right 25)
  have started : ((r.next ppsDuration (adjustment value)).next ppsDuration (inputs 0)).Correcting :=
    ⟨quiet_written ppsDuration (inputs 0) (adjustment_writes ppsDuration value),reads 0⟩
  have offset : _ = value.toInt := offset_written ppsDuration (inputs 0) (r.adjustment_writes ppsDuration value)
  have later : ∀ t, (inputs (t+1)).cmd ≠ .wr := fun t => reads (t+1)
  have resting : ∀ t, (preceded [rest] inputs t).cmd ≠ .wr := by
    intro t
    cases t with
    | zero => exact OcpCmd.noConfusion
    | succ t => exact reads t
  refine ⟨value.toInt.natAbs+2,fun t enough => ?_⟩
  obtain ⟨t,rfl⟩ := Nat.exists_eq_add_of_le (le_trans (Nat.le_add_left 2 _) enough)
  rw [Nat.add_comm 2 t] at enough ⊢
  show (r.ran ppsDuration (preceded [adjustment value] inputs) (t+1+1)).nsOffsetReg = 0 ∧
    (r.ran ppsDuration (preceded [adjustment value] inputs) (t+1+1)).time ≡
      (r.ran ppsDuration (preceded [rest] inputs) (t+2)).time+-value.toInt [ZMOD period]
  rw [ran_preceded,ran_first]
  have settled := ran_settles ppsDuration started later (by rw [offset]; exact inside) t
  have balance := ran_balance ppsDuration started later t
  have unchanged := ran_balance ppsDuration correcting resting (t+2)
  rw [ran_zero ppsDuration correcting resting clear,clear,sub_zero,sub_zero] at unchanged
  generalize ran _ ppsDuration (fun u => inputs (u+1)) t = final at settled balance ⊢
  have zero : final.nsOffsetReg.toInt = 0 := by
    omega
  refine ⟨BitVec.eq_of_toInt_eq zero,?_⟩
  rw [zero,sub_zero,offset] at balance
  calc final.time ≡ _ [ZMOD period] := balance
    _ ≡ r.time+25+25-value.toInt+25*t [ZMOD period] := (second.sub_right _).add_right _
    _ = r.time+25*((t+2 : Nat) : Int)+-value.toInt := by push_cast; ring
    _ ≡ _ [ZMOD period] := unchanged.symm.add_right _
end Write

theorem adjusts_unique {r : Rtc} {inputs : Nat → RegisterCommand} (one : r.Adjusts ppsDuration written inputs amount)
    (two : r.Adjusts ppsDuration written inputs other) : amount ≡ other [ZMOD period] := by
  obtain ⟨n,one⟩ := one
  obtain ⟨m,two⟩ := two
  have left := (one (max n m) (le_max_left n m)).2
  have right := (two (max n m) (le_max_right n m)).2
  exact Int.ModEq.add_left_cancel' _ (left.symm.trans right)

-- The time is right from every state, whatever its tick is.
theorem adjustment_converges (r : Rtc) (written : r.writes 0x20 = true) (inside : r.masterReg.data.toInt.natAbs ≤ 10^6)
    (ppsDuration : Nat) (inputs : Nat → RegisterCommand) (reads : ∀ t, (inputs t).cmd ≠ .wr) :
    (r.next ppsDuration (inputs 0)).nsOffsetReg.toInt = r.masterReg.data.toInt ∧
    Converges ((r.next ppsDuration (inputs 0)).ran ppsDuration fun t => inputs (t+1)) := by
  have offset := offset_written ppsDuration (inputs 0) written
  exact ⟨offset,ran_converges ppsDuration ⟨quiet_written ppsDuration (inputs 0) written,reads 0⟩ (fun t => reads (t+1))
    (by rw [offset]; exact inside)⟩

theorem adjustment_converges_hundred :
    (begin.next 20000 (adjustment 100)).writes 0x20 = true ∧
    Converges (((begin.next 20000 (adjustment 100)).next 20000 rest).ran 20000 fun _ => rest) :=
  ⟨by decide,(adjustment_converges (begin.next 20000 (adjustment 100)) (by decide) (by decide) 20000 (fun _ => rest)
    fun _ => OcpCmd.noConfusion).2⟩

theorem correct_offset_writes (offset rtc : Ptp.Time) (whole : offset.seconds = 0)
    (inside : offset.nanoseconds.toInt.natAbs ≤ 1000000) :
    Ptp.ptpCorrectOffset offset rtc = [⟨0x20,offset.nanoseconds⟩] := by
  unfold Ptp.ptpCorrectOffset Ptp.nsOffsetThreshold
  rw [if_neg (not_not.mpr whole),if_neg (by omega)]

theorem correction_exact_iff (offset rtc : Ptp.Time) (whole : offset.seconds = 0)
    (inside : offset.nanoseconds.toInt.natAbs ≤ 1000000) (r : Rtc) (correcting : r.Correcting) (clear : r.nsOffsetReg.toInt = 0)
    (ppsDuration : Nat) (inputs : Nat → RegisterCommand) (reads : ∀ t, (inputs t).cmd ≠ .wr) :
    r.Adjusts ppsDuration (Ptp.ptpCorrectOffset offset rtc) inputs (-offset.nanoseconds.toInt) ∧
    (r.Adjusts ppsDuration (Ptp.ptpCorrectOffset offset rtc) inputs (-(2*offset.nanoseconds.toInt)) ↔
      offset.nanoseconds.toInt = 0) := by
  rw [correct_offset_writes offset rtc whole inside]
  have half := adjusts_half ppsDuration offset.nanoseconds correcting clear reads inside
  refine ⟨half,fun full => ?_,fun zero => ?_⟩
  · have same := Int.ModEq.dvd (adjusts_unique half full)
    unfold period at same
    omega
  · rw [zero] at half ⊢
    exact half

theorem begin_correcting : begin.Correcting := ⟨⟨rfl,rfl⟩,OcpCmd.noConfusion⟩

theorem correction_exact_hundred :
    begin.Adjusts 20000 (Ptp.ptpCorrectOffset ⟨0,100⟩ ⟨0,0⟩) (fun _ => rest) (-100) ∧
    begin.Adjusts 20000 (Ptp.ptpCorrectOffset ⟨0,0⟩ ⟨0,0⟩) (fun _ => rest) 0 := by
  have hundred := correction_exact_iff ⟨0,100⟩ ⟨0,0⟩ rfl (by decide) begin begin_correcting (by decide) 20000 (fun _ => rest)
    fun _ => OcpCmd.noConfusion
  have nothing := correction_exact_iff ⟨0,0⟩ ⟨0,0⟩ rfl (by decide) begin begin_correcting (by decide) 20000 (fun _ => rest)
    fun _ => OcpCmd.noConfusion
  exact ⟨hundred.1,nothing.2.mpr (by decide)⟩

theorem hundred_halved : ¬begin.Adjusts 20000 (Ptp.ptpCorrectOffset ⟨0,100⟩ ⟨0,0⟩) (fun _ => rest) (-200) := by
  intro full
  have half : begin.Adjusts 20000 (Ptp.ptpCorrectOffset ⟨0,100⟩ ⟨0,0⟩) (fun _ => rest) (-100) :=
    adjusts_half 20000 100 begin_correcting (by decide) (fun _ => OcpCmd.noConfusion) (by decide)
  have same := (adjusts_unique half full).dvd
  exact absurd same (by decide)
end Patmos.Rtc
