import Patmos.Arp
import Patmos.TransitionSystem
namespace Patmos.Ethlib
open Transition List

-- With what is behind the table when a free entry is looked for.
inductive TableCall where
  | init
  | search (ip : IpAddress)
  | newEntry (beyond : Bool) (ip : IpAddress) (mac : MacAddress)
  | deleteEntry (ip : IpAddress)

section
variable (table : ArpTable)

def TableCall.apply : TableCall → ArpTable
  | .init => fun i => {table i with used := false}
  | .search _ => table
  | .newEntry beyond ip mac => arpTableNewEntry table beyond ip mac
  | .deleteEntry ip => arpTableDeleteEntry table ip

def cleaned (ip : IpAddress) : ArpTable := if (arpTableSearch table ip).isSome then arpTableDeleteEntry table ip else table

-- The entries that a search reads, up to the one that it finds.
def searched (ip : IpAddress) : List Nat :=
  match (finRange arpTableSize).find? fun i => (table i).holds ip with
  | some i => range (i+1)
  | none => range arpTableSize

-- The entries that a call reads or writes. The scan for a free one reads its flag before it looks at the bound.
def TableCall.entries : TableCall → List Nat
  | .init | .deleteEntry _ => range arpTableSize
  | .search ip => searched table ip
  | .newEntry beyond ip _ => searched table ip ++ (if (arpTableSearch table ip).isSome then range arpTableSize else []) ++
      range (scan (cleaned table ip) beyond 0+1) ++ [freeIndex (cleaned table ip) beyond]

def Roomy : TableCall → Prop
  | .newEntry _ ip _ => ∃ i, (table i).used = false ∨ (table i).holds ip = true
  | _ => True
end

def arpTable : System ArpTable TableCall where
  start table := ∀ i, (table i).used = false
  admits _ _ := True
  next := TableCall.apply

def Indexed (m : System ArpTable TableCall) : Prop :=
  ∀ table call, Reached m table → m.admits table call → ∀ k ∈ call.entries table, k < arpTableSize

section
variable {table : ArpTable}

theorem searched_lt (member : k ∈ searched table ip) : k < arpTableSize := by
  unfold searched at member
  split at member
  next i found => exact Nat.lt_of_lt_of_le (mem_range.mp member) i.isLt
  next => exact mem_range.mp member

theorem cleaned_used : (cleaned table ip i).used = ((table i).used && !(table i).holds ip) := by
  cases search : arpTableSearch table ip with
  | some found =>
    rw [cleaned,search]
    cases holds : (table i).holds ip <;> simp [arpTableDeleteEntry,holds]
  | none =>
    rw [cleaned,search,search_none search i]
    simp

theorem scan_used (table : ArpTable) (beyond : Bool) (i : Nat) (low : i ≤ j.val) (before : j.val < scan table beyond i) :
    (table j).used = true := by
  fun_induction scan table beyond i with
  | case1 i more ih =>
    obtain later | rfl := low.lt_or_eq
    · exact ih later before
    · simpa [entryUsed] using more.1
  | case2 i stops => exact absurd before low.not_gt

theorem scan_lt (beyond : Bool) (free : (table i).used = false) : scan table beyond 0 < arpTableSize := by
  refine (scan_le table beyond (Nat.zero_le _)).lt_of_ne fun full => ?_
  have used := scan_used table beyond 0 (Nat.zero_le i) (by rw [full]; exact i.isLt)
  rw [free] at used
  cases used
end

theorem arp_table_indexed {table : ArpTable} (roomy : Roomy table call) (member : k ∈ call.entries table) : k < arpTableSize := by
  cases call with
  | init | deleteEntry ip => exact mem_range.mp member
  | search ip => exact searched_lt member
  | newEntry beyond ip mac =>
    obtain ⟨i,room⟩ := roomy
    have free : (cleaned table ip i).used = false := by
      rw [cleaned_used]
      rcases room with room | room <;> simp [room]
    have inside := scan_lt beyond free
    simp only [TableCall.entries,mem_append] at member
    rcases member with ((read | deleted) | scanned) | taken
    · exact searched_lt read
    · split at deleted
      · exact mem_range.mp deleted
      · cases deleted
    · have upTo := mem_range.mp scanned
      omega
    · rw [mem_singleton.mp taken]
      exact freeIndex_lt _ _

theorem arp_table_indexed_full :
    7 ∈ (TableCall.newEntry true (fun _ => 3) fun _ => 0).entries (fun _ => ⟨true,fun _ => 3,fun _ => 0⟩) ∧ 7 < arpTableSize := by
  refine (and_iff_left_of_imp (arp_table_indexed ?_)).mpr (by decide +kernel)
  exact ⟨⟨0,by decide⟩,.inr (by decide)⟩

instance (table : ArpTable) (call : TableCall) : Decidable (arpTable.admits table call) := inferInstanceAs (Decidable True)

theorem ninth_entry_read : ¬Indexed arpTable := by
  intro indexed
  have begun : arpTable.start fun _ => ⟨false,fun _ => 0,fun _ => 0⟩ := fun _ => rfl
  have path := (Reached.start begun).run ((range 8).map fun n => .newEntry false (fun _ => .ofNat 8 n) fun _ => 0) (by decide +kernel)
  exact absurd (indexed _ (.newEntry false (fun _ => 8) fun _ => 0) path trivial 8 (by decide +kernel)) (by decide)
end Patmos.Ethlib
