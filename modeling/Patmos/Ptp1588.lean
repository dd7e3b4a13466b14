import Mathlib.Data.BitVec
import Mathlib.Tactic.Ring
namespace Patmos.Ptp
open BitVec

structure Time where
  seconds : BitVec 32
  nanoseconds : BitVec 32

structure Peer where
  ip : Fin 4 → BitVec 8
  mac : Fin 6 → BitVec 8

structure TimeRecord where
  syncInterval : BitVec 8
  offset : Time
  t1 : Time
  t2 : Time
  delay : Time
  t3 : Time
  t4 : Time

structure Msg where
  transportSpecMsgType : BitVec 8
  flagField : BitVec 16
  logMessageInterval : BitVec 8
  body : Time

structure RtcWrite where
  addr : BitVec 6
  data : BitVec 32

structure Port where
  ptpTimeRecord : TimeRecord
  lastMasterInfo : Peer
  lastSlaveInfo : Peer

def ptpCalcOffset (t1 t2 delay : BitVec 32) : BitVec 32 := t2-t1-delay
def ptpCalcDelay (t1 t2 t3 t4 : BitVec 32) : BitVec 32 := (t2-t1+t4-t3).sdiv 2

def wcetCompensation : BitVec 32 := 3*1000
def nsOffsetThreshold : Nat := 500000*1000

-- PTP_RATE_CONTROL is 1. What the clock shows is read before each write.
def ptpCorrectOffset (offset rtc : Time) : List RtcWrite :=
  if offset.seconds ≠ 0 then
    [⟨0x04,-offset.seconds+rtc.seconds⟩,⟨0x00,-offset.nanoseconds+wcetCompensation+rtc.nanoseconds⟩]
  else if nsOffsetThreshold < offset.nanoseconds.toInt.natAbs then
    [⟨0x00,-offset.nanoseconds+wcetCompensation+rtc.nanoseconds⟩]
  else [⟨0x20,offset.nanoseconds⟩]

def TimeRecord.reply (r : TimeRecord) (t4 : Time) : TimeRecord :=
  let delayNanoseconds := ptpCalcDelay r.t1.nanoseconds r.t2.nanoseconds r.t3.nanoseconds t4.nanoseconds
  let delaySeconds := ptpCalcDelay r.t1.seconds r.t2.seconds r.t3.seconds t4.seconds
  { r with
    t4 := t4
    delay := ⟨delaySeconds,delayNanoseconds⟩
    offset :=
      ⟨ptpCalcOffset r.t1.seconds r.t2.seconds delaySeconds,
        ptpCalcOffset r.t1.nanoseconds r.t2.nanoseconds delayNanoseconds⟩ }

-- PTP is 5 in the list of protocols, and PTP_CORRECTION_EN is 1.
def ptpv2HandleMsg (p : Port) (timestamp rtc : Time) (source : Peer) (rx : Msg) : Port × List RtcWrite × Int :=
  let r := p.ptpTimeRecord
  match rx.transportSpecMsgType.toNat with
  | 0x00 =>
    let r := {r with t2 := timestamp,syncInterval := rx.logMessageInterval}
    if rx.flagField &&& 0x0200 ≠ 0x0200 then
      ({p with ptpTimeRecord := {r with t1 := rx.body},lastMasterInfo := source},[],0x00)
    else ({p with ptpTimeRecord := r},[],0x00)
  | 0x08 => ({p with ptpTimeRecord := {r with t1 := rx.body},lastMasterInfo := source},[],0x08)
  | 0x01 => ({p with ptpTimeRecord := {r with t4 := timestamp},lastSlaveInfo := source},[],0x01)
  | 0x09 =>
    let r := r.reply rx.body
    ({p with ptpTimeRecord := r},ptpCorrectOffset r.offset rtc,0x09)
  | _ => (p,[],-5)

def Time.nanos (t : Time) : Int := t.seconds.toNat*10^9+t.nanoseconds.toNat
def Time.signedNanos (t : Time) : Int := t.seconds.toInt*10^9+t.nanoseconds.toInt

def Time.Valid (t : Time) : Prop := t.nanoseconds.toNat < 10^9

def InRange (value : Int) : Prop := -2^31 ≤ value ∧ value < 2^31

instance (value : Int) : Decidable (InRange value) := inferInstanceAs (Decidable (_ ∧ _))
instance (t : Time) : Decidable t.Valid := inferInstanceAs (Decidable (_ < _))

def Time.write (t : Time) (w : RtcWrite) : Time :=
  if w.addr = 0x00 then {t with nanoseconds := w.data}
  else if w.addr = 0x04 then {t with seconds := w.data} else t

-- The clock steps. A smaller offset goes to the rate control.
def Steps (offset : Time) : Prop := offset.seconds ≠ 0 ∨ nsOffsetThreshold < offset.nanoseconds.toInt.natAbs

def Corrected (offset rtc : Time) : Prop :=
  ∀ w ∈ ptpCorrectOffset offset rtc,w.addr = 0x00 → w.data.toNat < 10^9 ∧
    ((ptpCorrectOffset offset rtc).foldl Time.write rtc).nanos = rtc.nanos-offset.signedNanos+wcetCompensation.toNat

-- No borrow is needed, neither from the seconds nor by them.
structure Separate (offset rtc : Time) : Prop where
  nanoseconds : 0 ≤ rtc.nanoseconds.toNat-offset.nanoseconds.toInt+wcetCompensation.toNat ∧
    rtc.nanoseconds.toNat-offset.nanoseconds.toInt+wcetCompensation.toNat < 10^9
  seconds : 0 ≤ rtc.seconds.toNat-offset.seconds.toInt ∧ rtc.seconds.toNat-offset.seconds.toInt < 2^32

-- The offset that follows from the two differences as it is calculated.
def halved (out back : Int) : Int := out-(out+back).tdiv 2

namespace TimeRecord
variable (r : TimeRecord)

def outSeconds : Int := r.t2.seconds.toNat-r.t1.seconds.toNat
def backSeconds : Int := r.t4.seconds.toNat-r.t3.seconds.toNat
def outNanoseconds : Int := r.t2.nanoseconds.toNat-r.t1.nanoseconds.toNat
def backNanoseconds : Int := r.t4.nanoseconds.toNat-r.t3.nanoseconds.toNat

structure Valid : Prop where
  t1 : r.t1.Valid
  t2 : r.t2.Valid
  t3 : r.t3.Valid
  t4 : r.t4.Valid

-- The arithmetic on the seconds does not overflow.
structure SecondsFit : Prop where
  delay : InRange (r.outSeconds+r.backSeconds)
  offset : InRange (halved r.outSeconds r.backSeconds)

def measured : Int := (r.t2.nanos-r.t1.nanos)-(r.t4.nanos-r.t3.nanos)

def Exact : Prop := |2*r.offset.signedNanos-r.measured| < 2
end TimeRecord

theorem bmod_inRange (inside : InRange value) : value.bmod (2^32) = value := by
  unfold InRange at inside
  apply Int.bmod_eq_of_le
  · norm_num
    omega
  · norm_num
    omega

section
variable (t1 t2 t3 t4 : BitVec 32) (sum : InRange ((t2.toNat-t1.toNat : Int)+(t4.toNat-t3.toNat)))
include sum

theorem toInt_ptpCalcDelay : (ptpCalcDelay t1 t2 t3 t4).toInt = ((t2.toNat-t1.toNat : Int)+(t4.toNat-t3.toNat)).tdiv 2 := by
  have total : (t2-t1+t4-t3).toInt = (t2.toNat-t1.toNat : Int)+(t4.toNat-t3.toNat) := by
    rw [toInt_sub,toInt_add,toInt_sub]
    simp only [toInt_eq_toNat_bmod,Int.bmod_sub_bmod,Int.bmod_add_bmod,Int.sub_bmod_bmod,Int.add_bmod_bmod]
    rw [← bmod_inRange sum]
    congr 1
    ring
  have two : (2#32).toInt = 2 := by decide
  rw [ptpCalcDelay,toInt_sdiv_of_ne_or_ne _ _ (.inr (by decide)),total]
  exact congrArg _ two

theorem toInt_ptpCalcOffset (result : InRange (halved (t2.toNat-t1.toNat) (t4.toNat-t3.toNat))) :
    (ptpCalcOffset t1 t2 (ptpCalcDelay t1 t2 t3 t4)).toInt = halved (t2.toNat-t1.toNat) (t4.toNat-t3.toNat) := by
  have out : (t2-t1).toInt = (t2.toNat-t1.toNat : Int).bmod (2^32) := by
    rw [toInt_sub,toInt_eq_toNat_bmod,toInt_eq_toNat_bmod,Int.bmod_sub_bmod,Int.sub_bmod_bmod]
  rw [ptpCalcOffset,toInt_sub,toInt_ptpCalcDelay t1 t2 t3 t4 sum,out,Int.bmod_sub_bmod]
  exact bmod_inRange result
end

theorem halved_twice (out back : Int) :
    (2 ∣ out+back ∧ 2*halved out back = out-back) ∨
    (¬2 ∣ out+back ∧ (2*halved out back = out-back+1 ∨ 2*halved out back = out-back-1)) := by
  unfold halved
  rw [Int.tdiv_eq_ediv]
  split
  · omega
  · have sign : Int.sign 2 = 1 := rfl
    omega

theorem nanoseconds_inRange {r : TimeRecord} (valid : r.Valid) :
    InRange (r.outNanoseconds+r.backNanoseconds) ∧ InRange (halved r.outNanoseconds r.backNanoseconds) := by
  obtain ⟨t1,t2,t3,t4⟩ := valid
  have twice := halved_twice r.outNanoseconds r.backNanoseconds
  unfold Time.Valid at t1 t2 t3 t4
  unfold InRange TimeRecord.outNanoseconds TimeRecord.backNanoseconds at *
  constructor
  · constructor
    · omega
    · omega
  · constructor
    · omega
    · omega

theorem reply_offset (r : TimeRecord) (t4 : Time) (valid : (r.reply t4).Valid) (fit : (r.reply t4).SecondsFit) :
    (r.reply t4).offset.seconds.toInt = halved (r.reply t4).outSeconds (r.reply t4).backSeconds ∧
    (r.reply t4).offset.nanoseconds.toInt = halved (r.reply t4).outNanoseconds (r.reply t4).backNanoseconds := by
  obtain ⟨sum,result⟩ := nanoseconds_inRange valid
  exact ⟨toInt_ptpCalcOffset _ _ _ _ fit.delay fit.offset,toInt_ptpCalcOffset _ _ _ _ sum result⟩

theorem measured_split (r : TimeRecord) :
    r.measured = (r.outSeconds-r.backSeconds)*10^9+(r.outNanoseconds-r.backNanoseconds) := by
  unfold TimeRecord.measured TimeRecord.outSeconds TimeRecord.backSeconds TimeRecord.outNanoseconds
    TimeRecord.backNanoseconds Time.nanos
  ring

-- An odd sum of the seconds is half a second off, which the nanoseconds do not make up for.
theorem offset_exact_iff (p : Port) (timestamp rtc : Time) (source : Peer) (rx : Msg)
    (reply : rx.transportSpecMsgType = 0x09)
    (valid : (ptpv2HandleMsg p timestamp rtc source rx).1.ptpTimeRecord.Valid)
    (fit : (ptpv2HandleMsg p timestamp rtc source rx).1.ptpTimeRecord.SecondsFit) :
    (ptpv2HandleMsg p timestamp rtc source rx).1.ptpTimeRecord.Exact ↔
      2 ∣ (ptpv2HandleMsg p timestamp rtc source rx).1.ptpTimeRecord.outSeconds+
        (ptpv2HandleMsg p timestamp rtc source rx).1.ptpTimeRecord.backSeconds := by
  have handled : (ptpv2HandleMsg p timestamp rtc source rx).1.ptpTimeRecord = p.ptpTimeRecord.reply rx.body := by
    unfold ptpv2HandleMsg
    rw [reply]
    rfl
  rw [handled] at valid fit ⊢
  generalize after : p.ptpTimeRecord.reply rx.body = r at valid fit ⊢
  have offset := reply_offset p.ptpTimeRecord rx.body
  rw [after] at offset
  obtain ⟨seconds,nanoseconds⟩ := offset valid fit
  have wholes := halved_twice r.outSeconds r.backSeconds
  have parts := halved_twice r.outNanoseconds r.backNanoseconds
  unfold TimeRecord.Exact
  rw [measured_split,Time.signedNanos,abs_lt]
  constructor
  · intro close
    omega
  · intro even
    omega

def sampled (t1 t2 t3 : Time) : Port :=
  ⟨⟨0,⟨0,0⟩,t1,t2,⟨0,0⟩,t3,⟨0,0⟩⟩,⟨fun _ => 0,fun _ => 0⟩,⟨fun _ => 0,fun _ => 0⟩⟩

def replies (t1 t2 t3 t4 : Time) : TimeRecord :=
  (ptpv2HandleMsg (sampled t1 t2 t3) ⟨0,0⟩ ⟨0,0⟩ ⟨fun _ => 0,fun _ => 0⟩ ⟨0x09,0,0,t4⟩).1.ptpTimeRecord

theorem offset_exact_both : (replies ⟨0,999999990⟩ ⟨1,10⟩ ⟨1,999999995⟩ ⟨2,5⟩).Exact :=
  (offset_exact_iff _ _ _ _ _ rfl ⟨by decide,by decide,by decide,by decide⟩ ⟨by decide,by decide⟩).mpr (by decide)

-- Only the way to the slave crosses a second, and the offset should be zero.
theorem second_boundary_inexact :
    (replies ⟨0,999999999⟩ ⟨1,0⟩ ⟨1,0⟩ ⟨1,1⟩).Valid ∧ (replies ⟨0,999999999⟩ ⟨1,0⟩ ⟨1,0⟩ ⟨1,1⟩).SecondsFit ∧
    ¬(replies ⟨0,999999999⟩ ⟨1,0⟩ ⟨1,0⟩ ⟨1,1⟩).Exact := by
  refine ⟨⟨by decide,by decide,by decide,by decide⟩,⟨by decide,by decide⟩,?_⟩
  unfold TimeRecord.Exact
  decide

theorem toNat_corrected (offset constant value : BitVec 32) :
    ((-offset+constant+value).toNat : Int) = (value.toNat-offset.toInt+constant.toNat)%2^32 := by
  rw [toNat_add,toNat_add,toNat_neg,toInt_eq_toNat_cond]
  split <;> omega

theorem pair_corrected_iff (offset rtc t : Time) (valid : rtc.Valid) (inside : offset.nanoseconds.toInt.natAbs < 10^9)
    (seconds : (t.seconds.toNat : Int) = (rtc.seconds.toNat-offset.seconds.toInt)%2^32)
    (nanoseconds : t.nanoseconds = -offset.nanoseconds+wcetCompensation+rtc.nanoseconds) :
    (t.nanoseconds.toNat < 10^9 ∧ t.nanos = rtc.nanos-offset.signedNanos+wcetCompensation.toNat) ↔
      Separate offset rtc := by
  have written := toNat_corrected offset.nanoseconds wcetCompensation rtc.nanoseconds
  rw [← nanoseconds] at written
  unfold Time.nanos Time.signedNanos
  constructor
  · rintro ⟨below,exactly⟩
    constructor
    · omega
    · omega
  · rintro ⟨inner,outer⟩
    omega

-- The seconds and the nanoseconds are corrected on their own.
theorem step_corrected_iff (offset rtc : Time) (valid : rtc.Valid) (inside : offset.nanoseconds.toInt.natAbs < 10^9) :
    Corrected offset rtc ↔ (Steps offset → Separate offset rtc) := by
  unfold Corrected Steps ptpCorrectOffset
  by_cases whole : offset.seconds ≠ 0
  · have wraps := toNat_corrected offset.seconds 0#32 rtc.seconds
    rw [BitVec.add_zero,BitVec.toNat_zero,Int.natCast_zero,Int.add_zero] at wraps
    have pair := pair_corrected_iff offset rtc ⟨_,_⟩ valid inside wraps rfl
    rw [if_pos whole,List.forall_mem_cons,List.forall_mem_singleton]
    exact ⟨fun kept _ => pair.mp (kept.2 rfl),
      fun separate => ⟨fun wrong => absurd wrong (by simp),fun _ => pair.mpr (separate (.inl whole))⟩⟩
  · rw [if_neg whole]
    split
    case isTrue far =>
      have same : (rtc.seconds.toNat : Int) = (rtc.seconds.toNat-offset.seconds.toInt)%2^32 := by
        rw [not_not.mp whole]
        exact (Int.emod_eq_of_lt (by simp) (by simpa using rtc.seconds.isLt)).symm
      have pair := pair_corrected_iff offset rtc ⟨_,-offset.nanoseconds+wcetCompensation+_⟩ valid inside same rfl
      rw [List.forall_mem_singleton]
      exact ⟨fun kept _ => pair.mp (kept rfl),fun separate _ => pair.mpr (separate (.inr far))⟩
    case isFalse near =>
      rw [List.forall_mem_singleton]
      exact ⟨fun _ stepped => absurd stepped (not_or.mpr ⟨whole,near⟩),fun _ wrong => absurd wrong (by simp)⟩

theorem step_corrected_second : Corrected ⟨1,0⟩ ⟨5,0⟩ :=
  (step_corrected_iff ⟨1,0⟩ ⟨5,0⟩ (by decide) (by decide)).mpr fun _ => ⟨by decide,by decide⟩

-- The nanoseconds become 2^32-1000.
theorem step_borrows : ¬Corrected ⟨1,4000⟩ ⟨5,0⟩ := fun corrected =>
  absurd (corrected ⟨0x00,-4000+wcetCompensation+0⟩ (by simp [ptpCorrectOffset]) rfl).1 (by decide)
end Patmos.Ptp
