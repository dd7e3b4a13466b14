import Mathlib.Data.BitVec
import Patmos.OcpSignals
import Patmos.OrReduction
import Patmos.TransitionSystem
namespace Patmos
open Transition List

-- The codes are 00, 01, 10 and 11.
def OcpResp.or : OcpResp → OcpResp → OcpResp
  | .null,resp => resp
  | resp,.null => resp
  | .dva,.dva => .dva
  | .fail,.fail => .fail
  | _,_ => .err

namespace Io
structure Device where
  addr : Nat
  addrwidth : Nat
  spm : Bool

inductive CmpDevice where
  | argo
  | hardlock
  | sharedSPM
  | oneWay
  | tdmArbiter
  | ownSPM
  | spmPool
  | s4noc
  | caspm
  | asyncLock
  | uartCmp
  | twoWay
  | transactionalMemory
  | ledsCmp

def CmpDevice.device : CmpDevice → Device
  | argo => ⟨0x1C,5,false⟩
  | hardlock => ⟨0xE801,16,false⟩
  | sharedSPM => ⟨0xE802,16,false⟩
  | oneWay => ⟨0xE803,16,false⟩
  | tdmArbiter => ⟨0xE804,16,false⟩
  | ownSPM => ⟨0xE805,16,false⟩
  | spmPool => ⟨0xE806,16,false⟩
  | s4noc => ⟨0xE807,16,false⟩
  | caspm => ⟨0xE808,16,false⟩
  | asyncLock => ⟨0xE809,16,false⟩
  | uartCmp => ⟨0xF008,16,false⟩
  | twoWay => ⟨0xE80B,16,false⟩
  | transactionalMemory => ⟨0xE80C,16,false⟩
  | ledsCmp => ⟨0xE80D,16,false⟩

def single (off : Nat) : Device := ⟨0xF000+off,16,false⟩
def spm : Device := ⟨0x0,4,true⟩
def ispm : Device := ⟨0x0001,16,false⟩

def Device.sel (d : Device) (addr : BitVec 32) : Bool :=
  addr.toNat/2^(32-d.addrwidth) = d.addr ∧ (d.spm → addr.getLsbD 16 = false)

-- The offsets are those of the devices of a core, with the CPU info, the exception unit and the MMU among them. Two
-- devices at one address are refused.
structure Config where
  offsets : List Nat
  cmpDevices : List CmpDevice
  distinct : ((offsets.map single ++ cmpDevices.map CmpDevice.device ++ [spm,ispm]).map Device.addr).Nodup

def Config.devios (c : Config) : List Device := c.offsets.map single ++ c.cmpDevices.map CmpDevice.device ++ [spm,ispm]

abbrev Config.Index (c : Config) := Fin c.devios.length

structure Slave where
  resp : OcpResp
  data : BitVec 32

structure Cycle (c : Config) where
  cmd : OcpCmd
  addr : BitVec 32
  slaves : c.Index → Slave

structure Decode (c : Config) where
  selReg : c.Index → Bool
  errRespReg : OcpResp

namespace Decode
variable {c : Config} (d : Decode c) (x : Cycle c)

def sel (addr : BitVec 32) (i : c.Index) : Bool := (c.devios.get i).sel addr
def validdev (addr : BitVec 32) : Bool := (finRange c.devios.length).any (sel (c := c) addr)

def slaveCmd (i : c.Index) : OcpCmd := if sel x.addr i then x.cmd else .idle

def resp : OcpResp :=
  d.errRespReg.or (((finRange c.devios.length).map fun i => (x.slaves i).resp).foldl OcpResp.or .null)

def data : BitVec 32 :=
  (finRange c.devios.length).foldl (fun data i => if d.selReg i then (x.slaves i).data else data) 0

def next : Decode c where
  selReg i := if x.cmd ≠ .idle then sel x.addr i else d.selReg i
  errRespReg := if x.cmd ≠ .idle ∧ validdev (c := c) x.addr = false then .err else d.errRespReg
end Decode
open Decode

inductive Access (c : Config) where
  | none
  | unmapped
  | mapped (i : c.Index)
  deriving DecidableEq

structure Port (c : Config) where
  decode : Decode c
  access : Access c
  busy : c.Index → Bool

namespace Port
variable {c : Config} (p : Port c) (x : Cycle c)

def issued : Access c :=
  match (finRange c.devios.length).find? (sel x.addr) with
  | some i => .mapped i
  | none => .unmapped

def next : Port c where
  decode := p.decode.next x
  access := if x.cmd ≠ .idle then issued x else if p.decode.resp x ≠ .null then .none else p.access
  busy i := if slaveCmd x i ≠ .idle then true else if (x.slaves i).resp ≠ .null then false else p.busy i

-- The core waits for the answer before it issues the next access, and a device answers only what it has been asked.
structure Keeps : Prop where
  waits : x.cmd ≠ .idle → p.access = .none ∨ p.decode.resp x ≠ .null
  asked : ∀ i, (x.slaves i).resp ≠ .null → p.busy i = true
end Port

def system (c : Config) : System (Port c) (Cycle c) where
  start p := p.decode = ⟨fun _ => false,.null⟩ ∧ p.access = .none ∧ ∀ i, p.busy i = false
  admits p x := p.Keeps x
  next p x := p.next x

-- The answer of a cycle is the one of the selected device, the error of an access to none, or no answer.
def Answered (p : Port c) (x : Cycle c) : Prop :=
  match p.access with
  | .none => p.decode.resp x = .null
  | .unmapped => p.decode.resp x = .err
  | .mapped i => p.decode.resp x = (x.slaves i).resp ∧ ((x.slaves i).resp ≠ .null → p.decode.data x = (x.slaves i).data)

def Faithful (m : System (Port c) (Cycle c)) : Prop := ∀ p x, Reached m p → m.admits p x → Answered p x

-- At most the access that is answered now went to no device.
def Fresh (p : Port c) (_ : Cycle c) : Prop := p.decode.errRespReg ≠ .null → p.access = .unmapped

inductive Kind : Device → Prop where
  | page : 0xE801 ≤ addr → Kind ⟨addr,16,false⟩
  | argo : Kind ⟨0x1C,5,false⟩
  | spm : Kind spm
  | ispm : Kind ispm

theorem devios_kind {c : Config} (member : d ∈ c.devios) : Kind d := by
  simp only [Config.devios,mem_append,mem_map,mem_cons,not_mem_nil,or_false] at member
  rcases member with (⟨off,_,rfl⟩ | ⟨device,_,rfl⟩) | rfl | rfl
  · exact .page (by omega)
  · cases device with
    | argo => exact .argo
    | _ => exact .page (by decide)
  · exact .spm
  · exact .ispm

theorem sel_upper (kind : Kind d) (selected : d.sel addr = true) :
    (d.addr = addr.toNat/2^16 ∧ (0xE801 ≤ addr.toNat/2^16 ∨ addr.toNat/2^16 = 1)) ∨
    (d.addr = 0x1C ∧ 0xE000 ≤ addr.toNat/2^16 ∧ addr.toNat/2^16 < 0xE800) ∨
    (d.addr = 0 ∧ addr.toNat/2^16 < 0x1000 ∧ addr.toNat/2^16 % 2 = 0) := by
  simp only [Device.sel,decide_eq_true_eq] at selected
  have bit : addr.getLsbD 16 = decide (addr.toNat/2^16 % 2 = 1) := by
    rw [← BitVec.testBit_toNat,Nat.testBit_eq_decide_div_mod_eq]
  obtain ⟨upper,lower⟩ := selected
  cases kind with
  | page high =>
    simp only at upper ⊢
    omega
  | argo =>
    simp only at upper
    exact .inr (.inl ⟨rfl,by omega,by omega⟩)
  | spm =>
    have even : addr.getLsbD 16 = false := lower rfl
    rw [bit,decide_eq_false_iff_not] at even
    simp only [spm] at upper
    exact .inr (.inr ⟨rfl,by omega,by omega⟩)
  | ispm =>
    simp only [ispm] at upper ⊢
    omega

-- Different addresses are enough, as the wider ranges hold no other device.
theorem sel_addr (one : Kind d) (two : Kind e) (selected : d.sel addr = true) (too : e.sel addr = true) : d.addr = e.addr := by
  have upper := sel_upper one selected
  have other := sel_upper two too
  omega

section
variable {c : Config} {d : Decode c} {x : Cycle c}

theorem sel_unique {i j : c.Index} (one : sel addr i = true) (two : sel addr j = true) : i = j := by
  have same := sel_addr (devios_kind (get_mem c.devios i)) (devios_kind (get_mem c.devios j)) one two
  have distinct : (c.devios.map Device.addr).Nodup := c.distinct
  have equal := distinct.get_inj_iff (i := ⟨i.1,by simp⟩) (j := ⟨j.1,by simp⟩)
  simp only [get_eq_getElem,getElem_map,Fin.mk.injEq] at equal
  exact Fin.ext (equal.mp same)

theorem or_joins : OrReduction.Joins OcpResp.or .null := by
  refine ⟨fun resp => ?_,fun resp => ?_,fun resp => ?_⟩
  all_goals cases resp <;> rfl

theorem resp_single (noError : d.errRespReg = .null) (i : c.Index)
    (others : ∀ j, j ≠ i → (x.slaves j).resp = .null) : d.resp x = (x.slaves i).resp := by
  unfold resp
  rw [noError]
  refine OrReduction.foldl_single or_joins _ _ _ ?_ (.inr ⟨?_,mem_map.mpr ⟨i,mem_finRange i,rfl⟩⟩)
  · intro resp member
    obtain ⟨j,_,rfl⟩ := mem_map.mp member
    by_cases same : j = i
    · subst j
      exact .inr rfl
    · exact .inl (others j same)
  · rfl

theorem resp_silent {x : Cycle c} (silent : ∀ j, (x.slaves j).resp = .null) : d.resp x = d.errRespReg := by
  have merged : ((finRange c.devios.length).map fun i => (x.slaves i).resp).foldl OcpResp.or .null = .null :=
    OrReduction.foldl_single or_joins _ _ _ (fun resp member => by
      obtain ⟨j,_,rfl⟩ := mem_map.mp member
      exact .inl (silent j)) (.inl rfl)
  unfold resp
  rw [merged]
  exact or_joins.right _

theorem foldl_selected (selected : α → Bool) (data : α → β) (devices : List α) (start : β)
    (unique : ∀ j ∈ devices, selected j = true → data j = value) (present : start = value ∨ ∃ i ∈ devices, selected i = true) :
    devices.foldl (fun data' j => if selected j then data j else data') start = value := by
  induction devices generalizing start with
  | nil => simpa using present
  | cons j rest ih =>
    refine ih _ (fun k member => unique k (.tail _ member)) ?_
    dsimp only
    cases chosen : selected j with
    | true =>
      exact .inl (unique j (.head _) chosen)
    | false =>
      rcases present with rfl | ⟨i,member,picked⟩
      · exact .inl rfl
      · rcases mem_cons.mp member with rfl | later
        · exact absurd (picked.symm.trans chosen) (by decide)
        · exact .inr ⟨i,later,picked⟩
end

-- What the registers hold for the access that waits for its answer.
structure Consistent (p : Port c) : Prop where
  idle : p.access = .none → ∀ i, p.busy i = false
  error : p.access = .unmapped → p.decode.errRespReg = .err ∧ ∀ i, p.busy i = false
  device : ∀ i, p.access = .mapped i →
    p.decode.selReg i = true ∧ (∀ j, p.decode.selReg j = true → j = i) ∧ ∀ j, p.busy j = true → j = i
  noError : p.decode.errRespReg = .null ∨ p.decode.errRespReg = .err

section Step
variable {c : Config} {p : Port c} {x : Cycle c}

theorem silent_of_idle (keeps : p.Keeps x) (idle : ∀ i, p.busy i = false) (i : c.Index) : (x.slaves i).resp = .null := by
  by_contra answers
  exact absurd ((keeps.asked i answers).symm.trans (idle i)) (by decide)

theorem consistent_answered (consistent : Consistent p) (keeps : p.Keeps x) (fresh : Fresh p x) : Answered p x := by
  unfold Answered
  split
  next free =>
    rw [resp_silent (silent_of_idle keeps (consistent.idle free))]
    by_contra error
    have unmapped := fresh error
    rw [free] at unmapped
    cases unmapped
  next unmapped =>
    obtain ⟨error,idle⟩ := consistent.error unmapped
    rw [resp_silent (silent_of_idle keeps idle),error]
  next i mapped =>
    obtain ⟨chosen,others,busy⟩ := consistent.device i mapped
    have noError : p.decode.errRespReg = .null := by
      by_contra error
      have unmapped := fresh error
      rw [mapped] at unmapped
      cases unmapped
    refine ⟨resp_single noError i fun j other => ?_,fun _ => ?_⟩
    · by_contra answers
      exact other (busy j (keeps.asked j answers))
    · refine foldl_selected p.decode.selReg (fun j => (x.slaves j).data) _ 0 (fun j _ picked => ?_) (.inr ⟨i,mem_finRange i,chosen⟩)
      rw [others j picked]

theorem answered_idle (consistent : Consistent p) (answered : Answered p x) (free : p.access = .none ∨ p.decode.resp x ≠ .null)
    (i : c.Index) : p.busy i = false ∨ (x.slaves i).resp ≠ .null := by
  unfold Answered at answered
  split at answered
  next none => exact .inl (consistent.idle none i)
  next unmapped => exact .inl ((consistent.error unmapped).2 i)
  next j mapped =>
    cases busy : p.busy i with
    | false => exact .inl rfl
    | true =>
      have same := (consistent.device j mapped).2.2 i busy
      subst i
      rcases free with none | some
      · rw [mapped] at none
        cases none
      · rw [answered.1] at some
        exact .inr some

theorem issued_mapped (found : Port.issued x = .mapped i) : sel x.addr i = true := by
  unfold Port.issued at found
  split at found
  next j present =>
    cases found
    exact find?_some present
  next => cases found

theorem issued_unmapped (missed : Port.issued x = .unmapped) (i : c.Index) : sel x.addr i = false := by
  unfold Port.issued at missed
  split at missed
  next => cases missed
  next absent =>
    have all := find?_eq_none.mp absent i (mem_finRange i)
    simpa using all

theorem consistent_issues (consistent : Consistent p) (answered : Answered p x) (keeps : p.Keeps x) (issues : x.cmd ≠ .idle) :
    Consistent (p.next x) := by
  have access : (p.next x).access = Port.issued x := if_pos issues
  have selReg : ∀ i, (p.next x).decode.selReg i = sel x.addr i := fun i => if_pos issues
  have ready := answered_idle consistent answered (keeps.waits issues)
  have busy : ∀ i, sel x.addr i = false → (p.next x).busy i = false := by
    intro i unselected
    have quiet : slaveCmd x i = .idle := by simp [slaveCmd,unselected]
    show (if slaveCmd x i ≠ .idle then true else if (x.slaves i).resp ≠ .null then false else p.busy i) = false
    rw [if_neg (not_not.mpr quiet)]
    rcases ready i with free | answers
    · split
      · rfl
      · exact free
    · rw [if_pos answers]
  constructor
  · intro none
    rw [access,Port.issued] at none
    split at none <;> cases none
  · intro unmapped
    rw [access] at unmapped
    refine ⟨?_,fun i => busy i (issued_unmapped unmapped i)⟩
    have invalid : validdev (c := c) x.addr = false := by
      rw [validdev,any_eq_false]
      intro i _
      rw [issued_unmapped unmapped i]
      decide
    exact if_pos ⟨issues,invalid⟩
  · intro i mapped
    rw [access] at mapped
    have chosen := issued_mapped mapped
    refine ⟨(selReg i).trans chosen,fun j picked => ?_,fun j owes => ?_⟩
    · rw [selReg] at picked
      exact sel_unique picked chosen
    · cases picked : sel x.addr j with
      | true => exact sel_unique picked chosen
      | false => exact absurd (owes.symm.trans (busy j picked)) (by decide)
  · show (if _ then OcpResp.err else p.decode.errRespReg) = .null ∨ (if _ then OcpResp.err else p.decode.errRespReg) = .err
    split
    · exact .inr rfl
    · exact consistent.noError

theorem consistent_waits (consistent : Consistent p) (answered : Answered p x) (rests : x.cmd = .idle) :
    Consistent (p.next x) := by
  have quiet : ∀ i, slaveCmd x i = .idle := by
    intro i
    unfold slaveCmd
    rw [rests]
    split <;> rfl
  have busy : ∀ i, (p.next x).busy i = if (x.slaves i).resp ≠ .null then false else p.busy i :=
    fun i => if_neg (not_not.mpr (quiet i))
  have decode : (p.next x).decode = p.decode := by simp [Port.next,Decode.next,rests]
  have access : (p.next x).access = if p.decode.resp x ≠ .null then .none else p.access := if_neg (not_not.mpr rests)
  have still : ∀ i, (p.next x).busy i = true → p.busy i = true := by
    intro i owes
    rw [busy] at owes
    split at owes
    · cases owes
    · exact owes
  have silent : ∀ i, p.busy i = false → (p.next x).busy i = false := by
    intro i free
    cases owes : (p.next x).busy i with
    | false => rfl
    | true => exact absurd ((still i owes).symm.trans free) (by decide)
  constructor
  · intro none i
    rw [access] at none
    split at none
    next answers =>
      rcases answered_idle consistent answered (.inr answers) i with free | answered
      · exact silent i free
      · rw [busy,if_pos answered]
    next => exact silent i (consistent.idle none i)
  · intro unmapped
    rw [access] at unmapped
    split at unmapped
    next => cases unmapped
    next =>
      obtain ⟨error,idle⟩ := consistent.error unmapped
      exact ⟨decode ▸ error,fun i => silent i (idle i)⟩
  · intro i mapped
    rw [access] at mapped
    split at mapped
    next => cases mapped
    next =>
      obtain ⟨chosen,others,owes⟩ := consistent.device i mapped
      rw [decode]
      exact ⟨chosen,others,fun j busy => owes j (still j busy)⟩
  · rw [decode]
    exact consistent.noError
end Step

theorem reached_consistent {c : Config} {p : Port c} (path : Reached ((system c).restrict Fresh) p) : Consistent p := by
  induction path with
  | start begun =>
    obtain ⟨decode,access,busy⟩ := begun
    refine ⟨fun _ => busy,fun unmapped => ?_,fun i mapped => ?_,?_⟩
    · cases access.symm.trans unmapped
    · cases access.symm.trans mapped
    · rw [decode]
      exact .inl rfl
  | @step p x _ admitted ih =>
    have answered := consistent_answered ih admitted.1 admitted.2
    by_cases rests : x.cmd = .idle
    · exact consistent_waits ih answered rests
    · exact consistent_issues ih answered admitted.1 rests

theorem accesses_answered (c : Config) : Faithful ((system c).restrict Fresh) :=
  fun _ _ path admitted => consistent_answered (reached_consistent path) admitted.1 admitted.2

section Runs
instance (p : Port c) (x : Cycle c) : Decidable (p.Keeps x) :=
  decidable_of_iff ((x.cmd ≠ .idle → p.access = .none ∨ p.decode.resp x ≠ .null) ∧
      ∀ i, (x.slaves i).resp ≠ .null → p.busy i = true)
    ⟨fun ⟨waits,asked⟩ => ⟨waits,asked⟩,fun keeps => ⟨keeps.waits,keeps.asked⟩⟩

instance (p : Port c) (x : Cycle c) : Decidable ((system c).admits p x) := inferInstanceAs (Decidable (p.Keeps x))
instance (p : Port c) (x : Cycle c) : Decidable (Fresh p x) := inferInstanceAs (Decidable (_ → _))

def small : Config := ⟨[],[],by decide⟩
def begin : Port small := ⟨⟨fun _ => false,.null⟩,.none,fun _ => false⟩

theorem begin_starts : (system small).start begin := ⟨rfl,rfl,fun _ => rfl⟩

def reads (addr : BitVec 32) (resp : OcpResp) : Cycle small := ⟨.rd,addr,fun i => if i.val = 0 then ⟨resp,5⟩ else ⟨.null,0⟩⟩
def waits (resp : OcpResp) : Cycle small := ⟨.idle,0,fun i => if i.val = 0 then ⟨resp,5⟩ else ⟨.null,0⟩⟩
end Runs

theorem accesses_answered_both :
    Answered ((system small).run begin [reads 0x8 .null,waits .null]) (reads 0x20000000 .dva) ∧
    Answered ((system small).run begin [reads 0x8 .null,waits .null,reads 0x20000000 .dva]) (waits .null) := by
  have path : Reached ((system small).restrict Fresh) (((system small).restrict Fresh).run begin [reads 0x8 .null,waits .null]) :=
    (Reached.start (m := (system small).restrict Fresh) begin_starts).run _ (by decide +kernel)
  have admitted : ((system small).restrict Fresh).admits
      (((system small).restrict Fresh).run begin [reads 0x8 .null,waits .null]) (reads 0x20000000 .dva) := by
    decide +kernel
  exact ⟨accesses_answered small _ _ path admitted,accesses_answered small _ _ (.step path admitted) (by decide +kernel)⟩

-- The error of the first access answers the second one too, before the device.
theorem error_kept : ¬Faithful (system small) := by
  intro faithful
  have path : Reached (system small) ((system small).run begin [reads 0x20000000 .null,reads 0x8 .null]) :=
    (Reached.start begin_starts).run _ (by decide +kernel)
  have answered : ((system small).run begin [reads 0x20000000 .null,reads 0x8 .null]).decode.resp (waits .dva) = .dva :=
    (faithful _ (waits .dva) path (by decide +kernel)).1
  exact absurd answered (by decide +kernel)
end Io
end Patmos
