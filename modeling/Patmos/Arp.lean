import Patmos.Udp
namespace Patmos.Ethlib
open Nat

def arpTableSize : Nat := 8

structure ArpEntry where
  used : Bool
  ipAddr : IpAddress
  macAddr : MacAddress

abbrev ArpTable := Fin arpTableSize → ArpEntry

def arpFrameLength : Nat := 42

section Table
def ArpEntry.holds (e : ArpEntry) (ip : IpAddress) : Bool := e.used && decide (e.ipAddr = ip)

section
variable (table : ArpTable) (beyond : Bool) (within : i ≤ arpTableSize)

def arpTableSearch (ip : IpAddress) : Option MacAddress :=
  ((List.finRange arpTableSize).find? fun i => (table i).holds ip).map fun i => (table i).macAddr

def arpTableDeleteEntry (ip : IpAddress) : ArpTable :=
  fun i => if (table i).holds ip then {table i with used := false} else table i

-- The flag of an entry, and what is behind the table where the scan of a full one ends.
def entryUsed (i : Nat) : Bool := if h : i < arpTableSize then (table ⟨i,h⟩).used else beyond

def scan (table : ArpTable) (beyond : Bool) (i : Nat) : Nat :=
  if entryUsed table beyond i = true ∧ i < arpTableSize then scan table beyond (i+1) else i
termination_by arpTableSize-i

theorem scan_le (within : i ≤ arpTableSize) : scan table beyond i ≤ arpTableSize := by
  fun_induction scan table beyond i with
  | case1 i more ih => exact ih more.2
  | case2 i stops => exact within

-- A full table gives away its first entry.
def freeIndex : Nat :=
  let i := scan table beyond 0
  if i = arpTableSize then 0 else i

theorem freeIndex_lt : freeIndex table beyond < arpTableSize := by
  have bound := scan_le table beyond (zero_le arpTableSize)
  unfold freeIndex
  dsimp only
  split
  · decide
  · omega

def freeEntry : Fin arpTableSize := ⟨freeIndex table beyond,freeIndex_lt table beyond⟩

def arpTableNewEntry (ip : IpAddress) (mac : MacAddress) : ArpTable :=
  let table := if (arpTableSearch table ip).isSome then arpTableDeleteEntry table ip else table
  Function.update table (freeEntry table beyond) ⟨true,ip,mac⟩
end
end Table

section Frames
section
variable (m : Buffer) (pktAddr : Nat)

def byteAt (addr : Nat) : BitVec 8 := (memIordByte m addr).setWidth 8

def arpGetTargetIp : IpAddress := fun i => byteAt m (pktAddr+38+i)
def arpGetTargetMac : MacAddress := fun i => byteAt m (pktAddr+32+i)
def arpGetSenderIp : IpAddress := fun i => byteAt m (pktAddr+28+i)
def arpGetSenderMac : MacAddress := fun i => byteAt m (pktAddr+22+i)

def octetOf [NeZero n] (address : Fin n → BitVec 8) (i : Nat) : BitVec 32 := (address (Fin.ofNat n i)).setWidth 32

def copyFrame (m : Buffer) (rxAddr txAddr : Nat) : Nat → Buffer
  | 0 => m
  | i+1 =>
    let m := copyFrame m rxAddr txAddr i
    memIowrByte m (txAddr+i) (memIordByte m (rxAddr+i))

-- The sender's address becomes the target's and is replaced by our own.
def swapAddress [NeZero n] (m : Buffer) (target sender : Nat) (mine : Fin n → BitVec 8) : Nat → Buffer
  | 0 => m
  | i+1 =>
    let m := swapAddress m target sender mine i
    let m := memIowrByte m (target+i) (memIordByte m (sender+i))
    memIowrByte m (sender+i) (octetOf mine i)

def arpBuildReply (h : Host) (rxAddr txAddr : Nat) : Buffer :=
  let m := if rxAddr ≠ txAddr then copyFrame m rxAddr txAddr arpFrameLength else m
  let m := swapAddress m txAddr (txAddr+6) h.myMac 6
  let m := memIowrByte m (txAddr+21) 2#32
  let m := swapAddress m (txAddr+32) (txAddr+22) h.myMac 6
  swapAddress m (txAddr+38) (txAddr+28) h.myIp 4

def requestMacs (m : Buffer) (h : Host) (txAddr : Nat) : Nat → Buffer
  | 0 => m
  | i+1 =>
    let m := requestMacs m h txAddr i
    let m := memIowrByte m (txAddr+i) 0xFF#32
    let m := memIowrByte m (txAddr+6+i) (octetOf h.myMac i)
    let m := memIowrByte m (txAddr+22+i) (octetOf h.myMac i)
    memIowrByte m (txAddr+32+i) 0x00#32

def requestIps (m : Buffer) (h : Host) (txAddr : Nat) (targetIp : IpAddress) : Nat → Buffer
  | 0 => m
  | i+1 =>
    let m := requestIps m h txAddr targetIp i
    let m := memIowrByte m (txAddr+28+i) (octetOf h.myIp i)
    memIowrByte m (txAddr+38+i) (octetOf targetIp i)

def arpBuildRequest (h : Host) (txAddr : Nat) (targetIp : IpAddress) : Buffer :=
  let m := requestMacs m h txAddr 6
  let m := requestIps m h txAddr targetIp 4
  let m := memIowr m (txAddr+12) 0x08060001#32
  let m := memIowr m (txAddr+16) 0x08000604#32
  let m := memIowrByte m (txAddr+20) 0x00#32
  memIowrByte m (txAddr+21) 0x01#32

-- The result with the memory and the table behind it. A reply is sent from the memory at txAddr.
def arpProcessReceived (h : Host) (table : ArpTable) (beyond : Bool) (rxAddr txAddr : Nat) : Nat × Buffer × ArpTable :=
  if arpGetTargetIp m rxAddr = h.myIp then
    if memIordByte m (rxAddr+21) = 0x01#32 then (1,arpBuildReply m h rxAddr txAddr,table)
    else if memIordByte m (rxAddr+21) = 0x02#32 then
      if arpGetTargetMac m rxAddr = h.myMac then
        (2,m,arpTableNewEntry table beyond (arpGetSenderIp m rxAddr) (arpGetSenderMac m rxAddr))
      else (0,m,table)
    else (0,m,table)
  else (0,m,table)
end
end Frames

-- The bytes of a frame arrive in the memory of another host.
def Delivered (m : Buffer) (txAddr : Nat) (w : Buffer) (rxAddr : Nat) : Prop :=
  ∀ i < arpFrameLength, byteAt w (rxAddr+i) = byteAt m (txAddr+i)

section Bytes
theorem iordByte_byteAt (m : Buffer) (addr : Nat) : memIordByte m addr = (byteAt m addr).setWidth 32 := (lane_narrow _ _).symm

theorem byteAt_iowrByte (m : Buffer) (addr : Nat) (data : BitVec 32) (other : Nat) :
    byteAt (memIowrByte m addr data) other = if other = addr then data.setWidth 8 else byteAt m other := by
  unfold byteAt
  rw [iordByte_iowrByte]
  by_cases same : other = addr
  · rw [if_pos same,if_pos same]
    apply BitVec.eq_of_getLsbD_eq
    intro i inside
    rw [BitVec.getLsbD_setWidth,BitVec.getLsbD_and,byte_getLsbD]
    simp [inside]
  · rw [if_neg same,if_neg same]

theorem byteAt_iowr (m : Buffer) (data : BitVec 32) (apart : other/4 ≠ addr/4) :
    byteAt (memIowr m addr data) other = byteAt m other := by
  unfold byteAt
  rw [iordByte_iowr,if_neg apart]

theorem octetOf_byte [NeZero n] (address : Fin n → BitVec 8) (i : Fin n) : (octetOf address i.val).setWidth 8 = address i := by
  unfold octetOf
  rw [Fin.ofNat_val_eq_self,BitVec.setWidth_setWidth_of_le _ (by decide),BitVec.setWidth_eq]

theorem byteAt_copyFrame (m : Buffer) (rxAddr txAddr n : Nat) (apart : rxAddr+n ≤ txAddr ∨ txAddr+n ≤ rxAddr) (other : Nat) :
    byteAt (copyFrame m rxAddr txAddr n) other =
      if txAddr ≤ other ∧ other < txAddr+n then byteAt m (rxAddr+(other-txAddr)) else byteAt m other := by
  induction n generalizing other with
  | zero =>
    rw [if_neg (by omega)]
    rfl
  | succ n ih =>
    have ih := ih (by omega)
    have source : byteAt (copyFrame m rxAddr txAddr n) (rxAddr+n) = byteAt m (rxAddr+n) := by
      rw [ih,if_neg (by omega)]
    rw [copyFrame,byteAt_iowrByte]
    by_cases last : other = txAddr+n
    · rw [if_pos last,if_pos (by omega),last,Nat.add_sub_cancel_left]
      exact source
    · rw [if_neg last,ih]
      exact if_congr (by omega) rfl rfl

theorem byteAt_swapAddress [NeZero k] (m : Buffer) (target sender : Nat) (mine : Fin k → BitVec 8) (n : Nat)
    (apart : target+n ≤ sender ∨ sender+n ≤ target) (other : Nat) :
    byteAt (swapAddress m target sender mine n) other =
      if sender ≤ other ∧ other < sender+n then (octetOf mine (other-sender)).setWidth 8
      else if target ≤ other ∧ other < target+n then byteAt m (sender+(other-target)) else byteAt m other := by
  induction n generalizing other with
  | zero =>
    rw [if_neg (by omega),if_neg (by omega)]
    rfl
  | succ n ih =>
    have ih := ih (by omega)
    have source : byteAt (swapAddress m target sender mine n) (sender+n) = byteAt m (sender+n) := by
      rw [ih,if_neg (by omega),if_neg (by omega)]
    rw [swapAddress,byteAt_iowrByte]
    by_cases ours : other = sender+n
    · rw [if_pos ours,if_pos (by omega),ours,Nat.add_sub_cancel_left]
    · rw [if_neg ours,byteAt_iowrByte]
      by_cases theirs : other = target+n
      · rw [if_pos theirs,if_neg (by omega),if_pos (by omega),theirs,Nat.add_sub_cancel_left]
        exact source
      · rw [if_neg theirs,ih]
        exact if_congr (by omega) rfl (if_congr (by omega) rfl rfl)

theorem copied_byte (apart : rxAddr = txAddr ∨ rxAddr+n ≤ txAddr ∨ txAddr+n ≤ rxAddr) (inside : j < n) :
    byteAt (if rxAddr ≠ txAddr then copyFrame m rxAddr txAddr n else m) (txAddr+j) = byteAt m (rxAddr+j) := by
  split
  case isTrue other =>
    rw [byteAt_copyFrame m rxAddr txAddr n (apart.resolve_left other),if_pos (by omega),Nat.add_sub_cancel_left]
  case isFalse same => rw [Classical.not_not.mp same]

section Swap
variable [NeZero k] {m : Buffer} {target sender : Nat} {mine : Fin k → BitVec 8} {n : Nat}
  (apart : target+n ≤ sender ∨ sender+n ≤ target)
include apart

theorem swapAddress_sender (i : Fin k) (inside : i.val < n) : byteAt (swapAddress m target sender mine n) (sender+i) = mine i := by
  rw [byteAt_swapAddress _ _ _ _ _ apart,if_pos (by omega),Nat.add_sub_cancel_left,octetOf_byte]

theorem swapAddress_target (inside : i < n) : byteAt (swapAddress m target sender mine n) (target+i) = byteAt m (sender+i) := by
  rw [byteAt_swapAddress _ _ _ _ _ apart,if_neg (by omega),if_pos (by omega),Nat.add_sub_cancel_left]

theorem swapAddress_other (first : other < sender ∨ sender+n ≤ other) (second : other < target ∨ target+n ≤ other) :
    byteAt (swapAddress m target sender mine n) other = byteAt m other := by
  rw [byteAt_swapAddress _ _ _ _ _ apart,if_neg (by omega),if_neg (by omega)]
end Swap

section
variable (m : Buffer) (h : Host) (txAddr : Nat) (targetIp : IpAddress)

theorem requestMacs_sender (few : n ≤ 6) (inside : i < n) :
    byteAt (requestMacs m h txAddr n) (txAddr+22+i) = (octetOf h.myMac i).setWidth 8 := by
  induction n with
  | zero => exact absurd inside (not_lt_zero i)
  | succ n ih =>
    rw [requestMacs,byteAt_iowrByte,if_neg (by omega),byteAt_iowrByte]
    by_cases last : i = n
    · rw [if_pos (by rw [last]),last]
    · rw [if_neg (by omega),byteAt_iowrByte,if_neg (by omega),byteAt_iowrByte,if_neg (by omega),ih (by omega) (by omega)]

theorem requestIps_before (n : Nat) (before : other < txAddr+28) :
    byteAt (requestIps m h txAddr targetIp n) other = byteAt m other := by
  induction n with
  | zero => rfl
  | succ n ih => rw [requestIps,byteAt_iowrByte,if_neg (by omega),byteAt_iowrByte,if_neg (by omega),ih]

theorem requestIps_addresses (few : n ≤ 4) (inside : i < n) :
    byteAt (requestIps m h txAddr targetIp n) (txAddr+28+i) = (octetOf h.myIp i).setWidth 8 ∧
    byteAt (requestIps m h txAddr targetIp n) (txAddr+38+i) = (octetOf targetIp i).setWidth 8 := by
  induction n with
  | zero => exact absurd inside (not_lt_zero i)
  | succ n ih =>
    rw [requestIps,byteAt_iowrByte,if_neg (by omega),byteAt_iowrByte,byteAt_iowrByte]
    by_cases last : i = n
    · rw [if_pos (by rw [last]),if_pos (by rw [last]),last]
      exact ⟨rfl,rfl⟩
    · rw [if_neg (by omega),if_neg (by omega),byteAt_iowrByte,if_neg (by omega)]
      exact ih (by omega) (by omega)
end
end Bytes

structure ArpFrame (m : Buffer) (addr : Nat) (operation : BitVec 8) (senderMac : MacAddress) (senderIp : IpAddress)
    (targetIp : IpAddress) : Prop where
  operation : byteAt m (addr+21) = operation
  senderMac : ∀ i : Fin 6, byteAt m (addr+22+i) = senderMac i
  senderIp : ∀ i : Fin 4, byteAt m (addr+28+i) = senderIp i
  targetIp : ∀ i : Fin 4, byteAt m (addr+38+i) = targetIp i

theorem Delivered.byte (delivered : Delivered m txAddr w rxAddr) (k : Nat) (i : Fin n) (inside : k+n ≤ 42) :
    byteAt w (rxAddr+k+i) = byteAt m (txAddr+k+i) := by
  rw [add_assoc,delivered (k+i) (by unfold arpFrameLength; omega),add_assoc]

theorem Delivered.frame {m w : Buffer} (delivered : Delivered m txAddr w rxAddr)
    (frame : ArpFrame m txAddr operation senderMac senderIp targetIp) : ArpFrame w rxAddr operation senderMac senderIp targetIp := by
  constructor
  · rw [delivered 21 (by decide)]
    exact frame.operation
  · exact fun i => (delivered.byte 22 i (by decide)).trans (frame.senderMac i)
  · exact fun i => (delivered.byte 28 i (by decide)).trans (frame.senderIp i)
  · exact fun i => (delivered.byte 38 i (by decide)).trans (frame.targetIp i)

theorem request_frame (m : Buffer) (h : Host) (txAddr : Nat) (targetIp : IpAddress) :
    ArpFrame (arpBuildRequest m h txAddr targetIp) txAddr 1#8 h.myMac h.myIp targetIp := by
  -- The words in the middle do not reach to the addresses, even if they are not aligned.
  have kept (j : Nat) (inside : 22 ≤ j) : byteAt (arpBuildRequest m h txAddr targetIp) (txAddr+j) =
      byteAt (requestIps (requestMacs m h txAddr 6) h txAddr targetIp 4) (txAddr+j) := by
    unfold arpBuildRequest
    rw [byteAt_iowrByte,if_neg (by omega),byteAt_iowrByte,if_neg (by omega),byteAt_iowr _ _ (by omega),
      byteAt_iowr _ _ (by omega)]
  constructor
  · unfold arpBuildRequest
    rw [byteAt_iowrByte,if_pos rfl]
    rfl
  · intro i
    rw [add_assoc,kept _ (by omega),← add_assoc,requestIps_before _ _ _ _ _ (by omega),
      requestMacs_sender _ _ _ (le_refl 6) i.isLt]
    exact octetOf_byte _ i
  · intro i
    rw [add_assoc,kept _ (by omega),← add_assoc,(requestIps_addresses _ _ _ _ (le_refl 4) i.isLt).1]
    exact octetOf_byte _ i
  · intro i
    rw [add_assoc,kept _ (by omega),← add_assoc,(requestIps_addresses _ _ _ _ (le_refl 4) i.isLt).2]
    exact octetOf_byte _ i

section Reply
variable {m : Buffer} {h : Host} {rxAddr txAddr : Nat} (apart : rxAddr = txAddr ∨ rxAddr+42 ≤ txAddr ∨ txAddr+42 ≤ rxAddr)
include apart

theorem reply_frame (frame : ArpFrame m rxAddr operation senderMac senderIp targetIp) :
    ArpFrame (arpBuildReply m h rxAddr txAddr) txAddr 2#8 h.myMac h.myIp senderIp ∧
    ∀ i : Fin 6, byteAt (arpBuildReply m h rxAddr txAddr) (txAddr+32+i) = senderMac i := by
  have copied (j : Nat) := copied_byte (m := m) (j := j) apart
  unfold arpBuildReply arpFrameLength
  refine ⟨⟨?_,?_,?_,?_⟩,?_⟩
  · rw [swapAddress_other (by omega) (by omega) (by omega),swapAddress_other (by omega) (by omega) (by omega),byteAt_iowrByte,if_pos rfl]
    rfl
  · intro i
    rw [swapAddress_other (by omega) (by omega) (by omega),swapAddress_sender (by omega) i i.isLt]
  · exact fun i => swapAddress_sender (by omega) i i.isLt
  · intro i
    rw [swapAddress_target (by omega) i.isLt,swapAddress_other (by omega) (by omega) (by omega),byteAt_iowrByte,if_neg (by omega),
      swapAddress_other (by omega) (by omega) (by omega),add_assoc,copied _ (by omega),← add_assoc]
    exact frame.senderIp i
  · intro i
    rw [swapAddress_other (by omega) (by omega) (by omega),swapAddress_target (by omega) i.isLt,byteAt_iowrByte,if_neg (by omega),
      swapAddress_other (by omega) (by omega) (by omega),add_assoc,copied _ (by omega),← add_assoc]
    exact frame.senderMac i
end Reply

section Entry
variable {table : ArpTable} {ip : IpAddress}

theorem search_none (none : arpTableSearch table ip = none) (i : Fin arpTableSize) : (table i).holds ip = false := by
  unfold arpTableSearch at none
  rw [Option.map_eq_none_iff,List.find?_eq_none] at none
  simpa using none i (List.mem_finRange i)

theorem delete_holds (table : ArpTable) (ip : IpAddress) (i : Fin arpTableSize) :
    (arpTableDeleteEntry table ip i).holds ip = false := by
  unfold arpTableDeleteEntry
  split
  · rfl
  case isFalse other => simpa using other

theorem newEntry_holds (table : ArpTable) (beyond : Bool) (ip : IpAddress) (mac : MacAddress) :
    ∃ i, arpTableNewEntry table beyond ip mac i = ⟨true,ip,mac⟩ ∧
      ∀ j, (arpTableNewEntry table beyond ip mac j).holds ip = true → j = i := by
  unfold arpTableNewEntry
  generalize cleared : (if (arpTableSearch table ip).isSome then arpTableDeleteEntry table ip else table) = rest
  have none (j : Fin arpTableSize) : (rest j).holds ip = false := by
    rw [← cleared]
    cases search : arpTableSearch table ip with
    | none => exact search_none search j
    | some mac => exact delete_holds table ip j
  refine ⟨freeEntry rest beyond,Function.update_self ..,fun j holds => ?_⟩
  by_contra other
  rw [Function.update_of_ne other,none j] at holds
  exact absurd holds Bool.false_ne_true

theorem search_only (entry : table i = ⟨true,ip,mac⟩) (only : ∀ j, (table j).holds ip = true → j = i) :
    arpTableSearch table ip = some mac := by
  have found : ((List.finRange arpTableSize).find? fun j => (table j).holds ip) = some i := by
    cases search : (List.finRange arpTableSize).find? fun j => (table j).holds ip with
    | none =>
      rw [List.find?_eq_none] at search
      exact absurd (by simp [entry,ArpEntry.holds]) (search i (List.mem_finRange i))
    | some j =>
      have holds : (table j).holds ip = true := by simpa using List.find?_some search
      rw [only j holds]
  unfold arpTableSearch
  rw [found,Option.map_some,entry]
end Entry

-- The second host knows the first one's address: its table has one entry for it.
structure Resolved (table : ArpTable) (h : Host) : Prop where
  once : ∃ i, (table i).holds h.myIp = true ∧ ∀ j, (table j).holds h.myIp = true → j = i
  found : arpTableSearch table h.myIp = some h.myMac

theorem arp_resolves (a b : Host) (memA memB memA' : Buffer) (tableA tableB : ArpTable) (beyondA beyondB : Bool)
    (rxA txA rxB txB : Nat) (apart : rxB = txB ∨ rxB+42 ≤ txB ∨ txB+42 ≤ rxB)
    (request : Delivered (arpBuildRequest memA a txA b.myIp) txA memB rxB)
    (reply : Delivered (arpProcessReceived memB b tableB beyondB rxB txB).2.1 txB memA' rxA) :
    (arpProcessReceived memB b tableB beyondB rxB txB).1 = 1 ∧ (arpProcessReceived memA' a tableA beyondA rxA txA).1 = 2 ∧
    Resolved (arpProcessReceived memA' a tableA beyondA rxA txA).2.2 b := by
  have asked := request.frame (request_frame memA a txA b.myIp)
  have targetB : arpGetTargetIp memB rxB = b.myIp := funext asked.targetIp
  have operationB : memIordByte memB (rxB+21) = 0x01#32 := by
    rw [iordByte_byteAt,asked.operation]
    rfl
  have processedB : arpProcessReceived memB b tableB beyondB rxB txB = (1,arpBuildReply memB b rxB txB,tableB) := by
    unfold arpProcessReceived
    rw [if_pos targetB,if_pos operationB]
  rw [processedB] at reply ⊢
  obtain ⟨answer,macs⟩ := reply_frame (h := b) apart asked
  have answered := reply.frame answer
  have targetA : arpGetTargetIp memA' rxA = a.myIp := funext answered.targetIp
  have operationA : memIordByte memA' (rxA+21) = 0x02#32 := by
    rw [iordByte_byteAt,answered.operation]
    rfl
  have macA : arpGetTargetMac memA' rxA = a.myMac := funext fun i => (reply.byte 32 i (by decide)).trans (macs i)
  have senderIp : arpGetSenderIp memA' rxA = b.myIp := funext answered.senderIp
  have senderMac : arpGetSenderMac memA' rxA = b.myMac := funext answered.senderMac
  have processedA : arpProcessReceived memA' a tableA beyondA rxA txA =
      (2,memA',arpTableNewEntry tableA beyondA b.myIp b.myMac) := by
    unfold arpProcessReceived
    rw [if_pos targetA,if_neg (by rw [operationA]; decide),if_pos operationA,if_pos macA,senderIp,senderMac]
  rw [processedA]
  obtain ⟨i,entry,only⟩ := newEntry_holds tableA beyondA b.myIp b.myMac
  have holds : (arpTableNewEntry tableA beyondA b.myIp b.myMac i).holds b.myIp = true := by
    rw [entry]
    simp [ArpEntry.holds]
  exact ⟨rfl,rfl,⟨i,holds,only⟩,search_only entry only⟩

def asking : Host := {myMac := fun _ => 2#8,myIp := fun _ => 10#8,ipv4Id := 0#16}

def asked : Host := {myMac := fun _ => 4#8,myIp := fun _ => 20#8,ipv4Id := 0#16}

def fullTable : ArpTable := fun _ => ⟨true,asked.myIp,asking.myMac⟩

theorem arp_resolves_stale : Resolved
    (arpProcessReceived (arpProcessReceived (arpBuildRequest (fun _ => 0#32) asking 0 asked.myIp) asked fullTable true 0 64).2.1
      asking fullTable true 64 0).2.2 asked :=
  (arp_resolves asking asked (fun _ => 0#32) _ _ fullTable fullTable true true 64 0 0 64 (by decide) (fun _ _ => rfl)
    (fun _ _ => rfl)).2.2
end Patmos.Ethlib
