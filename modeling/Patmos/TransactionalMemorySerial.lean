import Patmos.TransactionalMemory
namespace Patmos.TransactionalMemory
open Transition Register Transactions Core Nat
open List (append_nil map_append mem_append mem_singleton replicate)

-- The operations of a transaction, seen in the buffer: an entry marked as read has the value that the transaction
-- needs, an entry marked as written the value that it leaves.
structure Tracks (b : Buffer) (ops : List (Op Nat (Word 4))) (needs leaves : Nat → Option (Word 4)) : Prop where
  summary : Summary ops needs leaves
  needed : ∀ {a v}, needs a = some v → ∃ j < b.bufnxt, b.bufaddrs j = a ∧ b.bufrds j = true
  known : ∀ {j}, j < b.bufnxt → b.bufrds j = true →
    ∃ v, needs (b.bufaddrs j) = some v ∧ (b.bufwrs j = false → b.bufmem j = v)
  left : ∀ {a v}, leaves a = some v → ∃ j < b.bufnxt, b.bufaddrs j = a ∧ b.bufwrs j = true
  written : ∀ {j}, j < b.bufnxt → b.bufwrs j = true → leaves (b.bufaddrs j) = some (b.bufmem j)

namespace Tracks
variable {g : Config} {b : Buffer} {ops : List (Op Nat (Word 4))} {needs leaves : Nat → Option (Word 4)}

theorem clear (b : Buffer) : Tracks b.clear [] (fun _ => none) fun _ => none where
  summary := .nil
  needed none := nomatch none
  known inside := absurd inside (not_lt_zero _)
  left none := nomatch none
  written inside := absurd inside (not_lt_zero _)

section
variable (tracks : Tracks b ops needs leaves)
include tracks

theorem unneeded (free : Free b addr) : needs addr = none := by
  cases needed : needs addr with
  | none => rfl
  | some v =>
    obtain ⟨j,inside,here,_⟩ := tracks.needed needed
    exact absurd here (free j inside)

theorem unleft (free : ∀ j < b.bufnxt, b.bufaddrs j = addr → b.bufwrs j = false) : leaves addr = none := by
  cases left : leaves addr with
  | none => rfl
  | some v =>
    obtain ⟨j,inside,here,written⟩ := tracks.left left
    cases (free j inside here).symm.trans written

theorem overwrite (fits : Fits g b) (inside : j < b.bufnxt) (v : Word 4) :
    Tracks (b.overwrite j v) (ops ++ [.write (b.bufaddrs j) v]) needs
      (Function.update leaves (b.bufaddrs j) (some v)) := by
  refine ⟨tracks.summary.write _ v,tracks.needed,?_,?_,?_⟩
  · intro k within read
    obtain ⟨w,needed,same⟩ := tracks.known within read
    refine ⟨w,needed,fun unwritten => ?_⟩
    have other : k ≠ j := by
      rintro rfl
      simp [Buffer.overwrite] at unwritten
    simp only [Buffer.overwrite,Function.update_of_ne other] at unwritten ⊢
    exact same unwritten
  · intro a w left
    by_cases same : a = b.bufaddrs j
    · exact ⟨j,inside,same.symm,by simp [Buffer.overwrite]⟩
    · rw [Function.update_of_ne same] at left
      obtain ⟨k,within,here,written⟩ := tracks.left left
      have other : k ≠ j := by
        rintro rfl
        exact same here.symm
      exact ⟨k,within,here,by simpa [Buffer.overwrite,other] using written⟩
  · intro k within written
    by_cases same : k = j
    · subst same
      simp [Buffer.overwrite]
    · have elsewhere : b.bufaddrs k ≠ b.bufaddrs j := fun equal => same (fits.distinct within inside equal)
      simp only [Buffer.overwrite,Function.update_of_ne same,Function.update_of_ne elsewhere] at written ⊢
      exact tracks.written within written

theorem again (fits : Fits g b) (inside : j < b.bufnxt) :
    Tracks b (ops ++ [.read (b.bufaddrs j) (b.bufmem j)]) needs leaves := by
  refine ⟨tracks.summary.again ?_,tracks.needed,tracks.known,tracks.left,tracks.written⟩
  cases written : b.bufwrs j with
  | true => exact .inl (tracks.written inside written)
  | false =>
    have read : b.bufrds j = true := (fits.inUse j inside).resolve_right (by simp [written])
    obtain ⟨v,needed,same⟩ := tracks.known inside read
    refine .inr ⟨tracks.unleft fun k within here => ?_,?_⟩
    · rw [fits.distinct within inside here]
      exact written
    · rw [same written]
      exact needed
end

def entered (on : Bool) (f : Nat → Option (Word 4)) (addr : Nat) (v : Word 4) : Nat → Option (Word 4) :=
  if on then Function.update f addr (some v) else f

theorem entered_new (f : Nat → Option (Word 4)) (addr : Nat) (v : Word 4) : entered true f addr v addr = some v :=
  Function.update_self ..

theorem entered_old (other : ¬(on = true ∧ a = addr)) : entered on f addr v a = f a := by
  cases on with
  | false => rfl
  | true => exact Function.update_of_ne (fun same => other ⟨rfl,same⟩) _ _

theorem add (tracks : Tracks b ops needs leaves) (adds : Adds b b' addr v rd wr) (free : Free b addr)
    (summary : Summary ops' (entered rd needs addr v) (entered wr leaves addr v)) :
    Tracks b' ops' (entered rd needs addr v) (entered wr leaves addr v) := by
  have grown := adds.grown
  obtain ⟨place,read,written,content⟩ := adds.new
  refine ⟨summary,?_,?_,?_,?_⟩
  · intro a w needed
    by_cases new : rd = true ∧ a = addr
    · exact ⟨b.bufnxt,by omega,place.trans new.2.symm,read.trans new.1⟩
    · rw [entered_old new] at needed
      obtain ⟨j,inside,here,reads⟩ := tracks.needed needed
      obtain ⟨place,read,_,_⟩ := adds.old inside
      exact ⟨j,by omega,place.trans here,read.trans reads⟩
  · intro j inside reads
    rcases adds.cases inside with before | rfl
    · obtain ⟨place,read,written,content⟩ := adds.old before
      rw [place,written,content,entered_old fun new => free j before new.2]
      exact tracks.known before (read.symm.trans reads)
    · obtain rfl : rd = true := read.symm.trans reads
      rw [place,content]
      exact ⟨v,entered_new needs addr v,fun _ => rfl⟩
  · intro a w left
    by_cases new : wr = true ∧ a = addr
    · exact ⟨b.bufnxt,by omega,place.trans new.2.symm,written.trans new.1⟩
    · rw [entered_old new] at left
      obtain ⟨j,inside,here,writes⟩ := tracks.left left
      obtain ⟨place,_,written,_⟩ := adds.old inside
      exact ⟨j,by omega,place.trans here,written.trans writes⟩
  · intro j inside writes
    rcases adds.cases inside with before | rfl
    · obtain ⟨place,_,written,content⟩ := adds.old before
      rw [place,content,entered_old fun new => free j before new.2]
      exact tracks.written before (written.symm.trans writes)
    · obtain rfl : wr = true := written.symm.trans writes
      rw [place,content]
      exact entered_new leaves addr v
end Tracks

-- Unless a conflict is noted, the memory that a core sees has what its transaction needs.
def Tracked (b : Buffer) (ops : List (Op Nat (Word 4))) (conflict : Bool) (view : Nat → Word 4) : Prop :=
  ∃ needs leaves, Tracks b ops needs leaves ∧ (conflict = false → ∀ a v, needs a = some v → view a = v)

structure Recorded (g : Config) (b : Buffer) (overflow conflict : Bool) (h : History) (view : Nat → Word 4) : Prop where
  fits : Fits g b
  tracked : overflow = false → Tracked b h.ops conflict view
  shared : ∀ a ∈ h.shared, ∃ j < b.bufnxt, b.bufaddrs j = a ∧ b.bufrds j = true
  overtaken : h.overtaken = true → conflict = true

namespace Recorded
variable {g : Config} {b : Buffer} {overflow conflict : Bool} {h : History} {view : Nat → Word 4}

theorem clear (g : Config) (b : Buffer) (h : History) (view : Nat → Word 4) :
    Recorded g b.clear false false h.fresh view where
  fits := .clear g b
  tracked _ := ⟨_,_,.clear b,fun _ _ _ none => nomatch none⟩
  shared _ none := nomatch none
  overtaken none := nomatch none

section
variable (recorded : Recorded g b overflow conflict h view)
include recorded

-- The core with the turn may write in the shared memory; what the others have read there is compared.
theorem observe (mine : Bool) (t : Turn) (kept : ∀ a, view' a = view a ∨ (t.writes && !mine) = true ∧ a = t.sharedmemwraddr) :
    Recorded g b overflow (conflict || (t.writes && !mine && b.conflicts g t.sharedmemwraddr)) (h.observe mine t) view' where
  fits := recorded.fits
  tracked complete := by
    obtain ⟨needs,leaves,tracks,agrees⟩ := recorded.tracked complete
    refine ⟨needs,leaves,tracks,fun none a v needed => ?_⟩
    obtain ⟨before,unhit⟩ := Bool.or_eq_false_iff.mp none
    rcases kept a with same | ⟨writes,rfl⟩
    · exact same.trans (agrees before a v needed)
    · obtain ⟨j,inside,here,read⟩ := tracks.needed needed
      have hit := recorded.fits.conflicts_read inside read
      rw [here] at hit
      simp [writes,hit] at unhit
  shared := recorded.shared
  overtaken late := by
    rcases Bool.or_eq_true_iff.mp late with before | now
    · simp [recorded.overtaken before]
    · obtain ⟨writes,read⟩ := Bool.and_eq_true_iff.mp now
      obtain ⟨j,inside,here,read⟩ := recorded.shared _ (by simpa using read)
      have hit := recorded.fits.conflicts_read inside read
      rw [here] at hit
      simp [writes,hit]

theorem overwrite (inside : j < b.bufnxt) (here : b.bufaddrs j = addr)
    (v : Word 4) : Recorded g (b.overwrite j v) overflow conflict {h with ops := h.ops ++ [.write addr v]} view where
  fits := recorded.fits.overwrite inside v
  tracked complete := by
    obtain ⟨needs,leaves,tracks,agrees⟩ := recorded.tracked complete
    subst here
    exact ⟨needs,_,tracks.overwrite recorded.fits inside v,agrees⟩
  shared := recorded.shared
  overtaken := recorded.overtaken

theorem shared_add (adds : Adds b b' addr v rd wr) (member : a ∈ h.shared) :
    ∃ j < b'.bufnxt, b'.bufaddrs j = a ∧ b'.bufrds j = true := by
  obtain ⟨j,inside,here,reads⟩ := recorded.shared a member
  obtain ⟨place,read,_,_⟩ := adds.old inside
  exact ⟨j,adds.grown ▸ lt_succ_of_lt inside,place.trans here,read.trans reads⟩

theorem addWrite (room : b.bufnxt < g.bufsize) (free : Free b addr) (small : addr < 2^g.memaddrwidth) (v : Word 4) :
    Recorded g (b.addWrite g addr v) overflow conflict {h with ops := h.ops ++ [.write addr v]} view := by
  have adds := recorded.fits.addWrite room small v
  refine ⟨recorded.fits.add adds room free (.inr rfl),fun complete => ?_,fun _ => recorded.shared_add adds,recorded.overtaken⟩
  obtain ⟨needs,leaves,tracks,agrees⟩ := recorded.tracked complete
  exact ⟨needs,_,tracks.add adds free (tracks.summary.write addr v),agrees⟩

theorem again (inside : j < b.bufnxt) (here : b.bufaddrs j = addr) :
    Recorded g b overflow conflict {h with ops := h.ops ++ [.read addr (b.bufmem j)]} view where
  fits := recorded.fits
  tracked complete := by
    obtain ⟨needs,leaves,tracks,agrees⟩ := recorded.tracked complete
    subst here
    exact ⟨needs,leaves,tracks.again recorded.fits inside,agrees⟩
  shared := recorded.shared
  overtaken := recorded.overtaken

theorem addRead (room : b.bufnxt < g.bufsize) (free : Free b addr) (v : Word 4) (seen : view addr = v) :
    Recorded g (b.addRead g addr v) overflow conflict
      {h with ops := h.ops ++ [.read addr v],shared := h.shared ++ [addr]} view := by
  have adds := recorded.fits.addRead room addr v
  refine ⟨recorded.fits.add adds room free (.inl rfl),fun complete => ?_,fun a member => ?_,recorded.overtaken⟩
  · obtain ⟨needs,leaves,tracks,agrees⟩ := recorded.tracked complete
    have unwritten : leaves addr = none := tracks.unleft fun j inside here => absurd here (free j inside)
    refine ⟨_,leaves,tracks.add adds free (tracks.summary.fetch unwritten (tracks.unneeded free) v),fun none a w needed => ?_⟩
    by_cases same : a = addr
    · subst same
      rw [Tracks.entered_new] at needed
      exact seen.trans (Option.some.inj needed)
    · rw [Tracks.entered_old fun new => same new.2] at needed
      exact agrees none a w needed
  · rcases mem_append.mp member with old | new
    · exact recorded.shared_add adds old
    · cases mem_singleton.mp new
      exact ⟨b.bufnxt,adds.grown ▸ lt_succ_self _,adds.new.1,adds.new.2.1⟩

theorem overflows (ops : List (Op Nat (Word 4))) : Recorded g b true conflict {h with ops} view where
  fits := recorded.fits
  tracked complete := nomatch complete
  shared := recorded.shared
  overtaken := recorded.overtaken
end
end Recorded

def Stage (g : Config) (c : Core) (asked : Nat) : Prop :=
  match c.sReg with
  | .sIdle => True
  | .sRead => c.bufmemrdaddrReg < c.buf.bufnxt ∧ c.buf.bufaddrs c.bufmemrdaddrReg = asked
  | .sPreSharedRead => c.buf.bufnxt < g.bufsize ∧ c.memrdaddrReg = asked ∧ Free c.buf asked
  | .sSharedRead => c.buf.bufnxt < g.bufsize ∧ c.memrdaddrReg = asked ∧ Free c.buf asked
  | .sPreCommit => False
  | .sCommit => c.buf.bufnxt < g.bufsize ∧ c.overflowReg = false ∧ c.bufmemrdaddrReg ≤ c.buf.bufnxt ∧
      (c.bufconflict = true → c.bufmemrdaddrReg = 0)

structure Valid (g : Config) (c : Core) (h : History) (view : Nat → Word 4) : Prop where
  recorded : Recorded g c.buf c.overflowReg c.bufconflict h view
  stage : Stage g c h.asked

-- Addresses are inside the memory, a commit leaves an entry of the buffer unused, and no commit writes what a core
-- reads in that cycle.
def Sound (g : Config) (c : Core) (m : OcpCoreMasterSignals 4) (t : Turn) : Prop :=
  (c.sReg = .sIdle → m.cmd = .wr ∨ m.cmd = .rd ∧ commitAddr m = false → bufaddr g m < g.memsize) ∧
  (c.sReg = .sIdle → m.cmd = .rd → commitAddr m = true → c.refuses = false → c.buf.bufnxt < g.bufsize) ∧
  (c.sReg = .sSharedRead → t.writes = true → t.sharedmemwraddr ≠ c.memrdaddrReg)

attribute [local simp] Stage

section Step
variable {g : Config} {c : Core} {h : History} {view view' : Nat → Word 4} {mine : Bool} {t : Turn} {data : Word 4}
  {input : OcpCoreMasterSignals 4}

def Continues (g : Config) (c : Core) (h : History) (mine : Bool) (t : Turn) (data : Word 4) (input : OcpCoreMasterSignals 4)
    (view : Nat → Word 4) : Prop :=
  Valid g (c.next g mine t data input) ((h.next g c (c.next g mine t data input) (c.request g input)).observe mine t) view

theorem memsize_le (g : Config) : g.memsize ≤ 2^g.memaddrwidth := le_two_pow_log2Up g.memsize

section
variable {d : Core} (recorded : Recorded g c.buf c.overflowReg d.bufconflict h view) (idle : d.sReg = .sIdle)
  (buf : d.buf = c.buf) (overflow : d.overflowReg = c.overflowReg)
include recorded idle buf overflow

theorem write_valid (inside : bufaddr g m < g.memsize) :
    Valid g (write g c d m) {h with ops := h.ops ++ [.write (bufaddr g m) m.data]} view := by
  unfold write
  dsimp only
  split
  case isTrue found =>
    obtain ⟨j,within,here⟩ := recorded.fits.matched_iff.mp found
    rw [recorded.fits.bufmatch_eq within here]
    refine ⟨?_,by simp [idle]⟩
    rw [← overflow] at recorded
    exact recorded.overwrite within here m.data
  case isFalse missed =>
    split
    case isTrue full =>
      refine ⟨?_,by simp [idle]⟩
      rw [← buf] at recorded
      exact recorded.overflows _
    case isFalse space =>
      have room := lt_of_le_of_ne recorded.fits.bounded space
      have free := recorded.fits.unmatched (Bool.not_eq_true _ ▸ missed)
      refine ⟨?_,by simp [idle]⟩
      rw [← overflow] at recorded
      exact recorded.addWrite room free (inside.trans_le (memsize_le g)) m.data

theorem read_valid (inside : bufaddr g m < g.memsize) :
    Valid g (read g c d m) {h with asked := bufaddr g m} view := by
  have asked : Recorded g d.buf d.overflowReg d.bufconflict {h with asked := bufaddr g m} view := by
    rw [buf,overflow]
    exact ⟨recorded.fits,recorded.tracked,recorded.shared,recorded.overtaken⟩
  unfold Core.read
  dsimp only
  split
  case isTrue found =>
    obtain ⟨j,within,here⟩ := recorded.fits.matched_iff.mp found
    rw [recorded.fits.bufmatch_eq within here]
    exact ⟨asked,by simp [buf,within,here]⟩
  case isFalse missed =>
    split
    case isTrue full => exact ⟨asked.overflows h.ops,by simp [idle]⟩
    case isFalse space =>
      have room := lt_of_le_of_ne recorded.fits.bounded space
      have free := recorded.fits.unmatched (Bool.not_eq_true _ ▸ missed)
      have whole : bufaddr g m % 2^g.memaddrwidth = bufaddr g m :=
        mod_eq_of_lt (inside.trans_le (memsize_le g))
      exact ⟨asked,by simp [buf,room,free,whole]⟩

theorem commit_valid (first : d.bufmemrdaddrReg = 0) (room : c.refuses = false → c.buf.bufnxt < g.bufsize) :
    Valid g (commit c d) (if (commit c d).sReg = .sCommit then h else h.fresh) view := by
  unfold commit
  cases refused : c.refuses with
  | true =>
    rw [if_pos rfl,if_neg (by simp [respond,clear,idle])]
    refine ⟨?_,by simp [respond,clear,idle]⟩
    exact .clear g d.buf h view
  | false =>
    have complete : c.overflowReg = false := by
      simp only [refuses,Bool.or_eq_false_iff] at refused
      exact refused.2
    rw [← buf,← overflow] at recorded
    exact ⟨recorded,by simp [buf,overflow,first,room refused,complete]⟩
end

theorem index_next (inside : j < n) (room : n < g.bufsize) : (j+1) % 2^log2Up g.bufsize = j+1 :=
  mod_eq_of_lt (lt_of_lt_of_le (lt_of_le_of_lt inside room) (le_two_pow_log2Up g.bufsize))

theorem fresh_observe (h : History) (mine : Bool) (t : Turn) : h.fresh.observe mine t = (h.observe mine t).fresh := by
  simp [History.observe,History.fresh]

theorem finish_valid (commits : c.sReg = .sCommit) (due : (mine || c.bufconflict) = true)
    (ends : c.bufmemrdaddrReg = c.buf.bufnxt ∨ c.bufconflict = true) : Continues g c h mine t data input view' := by
  have finished : (c.next g mine t data input).sReg = .sIdle := by
    simp [next,commits,due,transfer,ends]
  unfold Continues
  have cleared : (h.next g c (c.next g mine t data input) (c.request g input)).observe mine t = (h.observe mine t).fresh := by
    simp only [History.next,commits,finished]
    exact fresh_observe h mine t
  rw [cleared]
  refine ⟨?_,by simp [finished]⟩
  simp only [next,commits,due,transfer,ends]
  exact .clear g c.buf _ _

theorem transfer_valid (recorded : Recorded g c.buf c.overflowReg c.bufconflict h view) (stage : Stage g c h.asked)
    (commits : c.sReg = .sCommit)
    (kept : ∀ a, view' a = view a ∨ (t.writes && !mine) = true ∧ a = t.sharedmemwraddr) : Continues g c h mine t data input view' := by
  have seen := recorded.observe mine t kept
  simp only [Stage,commits] at stage
  obtain ⟨room,complete,within,restart⟩ := stage
  have stays (goes : (c.next g mine t data input).sReg = .sCommit) :
      h.next g c (c.next g mine t data input) (c.request g input) = h := by
    simp only [History.next,commits,goes,if_true]
  cases due : mine || c.bufconflict with
  | true =>
    by_cases ends : c.bufmemrdaddrReg = c.buf.bufnxt ∨ c.bufconflict = true
    · exact finish_valid commits due ends
    · rw [Continues,stays (by simp [next,commits,due,transfer,ends,defaults])]
      obtain ⟨more,clear⟩ := not_or.mp ends
      have step := index_next (lt_of_le_of_ne within more) room
      have turn : mine = true := by simpa [clear] using due
      subst turn
      simp only [next,commits,due,if_true,transfer,ends,if_false]
      refine ⟨seen,?_⟩
      simp only [Stage,defaults,commits]
      refine ⟨room,complete,by omega,fun conflict => ?_⟩
      simp [clear] at conflict
  | false =>
    rw [Continues,stays (by simp [next,commits,due,defaults])]
    simp only [next,commits,due]
    refine ⟨seen,?_⟩
    simp [defaults,commits,room,complete]

theorem Valid.step (valid : Valid g c h view) (sound : Sound g c (c.request g input) t)
    (kept : ∀ a, view' a = view a ∨ (t.writes && !mine) = true ∧ a = t.sharedmemwraddr)
    (fetched : c.sReg = .sSharedRead → view' c.memrdaddrReg = data) : Continues g c h mine t data input view' := by
  obtain ⟨recorded,stage⟩ := valid
  obtain ⟨address,room,window⟩ := sound
  have seen := recorded.observe mine t kept
  unfold Continues
  cases here : c.sReg with
  | sIdle =>
    have idle : (c.defaults g mine t data input).sReg = .sIdle := here
    cases cmd : (c.request g input).cmd with
    | idle =>
      simp only [next,History.next,here,cmd]
      exact ⟨seen,by simp [idle]⟩
    | wr =>
      simp only [next,History.next,here,cmd]
      exact write_valid (c := c) (d := (c.defaults g mine t data input).respond data) seen idle rfl rfl
        (address here (.inl cmd))
    | rd =>
      cases commits : commitAddr (c.request g input) with
      | true =>
        have step := commit_valid (d := c.defaults g mine t data input) seen idle rfl rfl rfl (room here cmd commits)
        simp only [next,History.next,here,cmd,commits,if_true]
        split
        case isTrue goes => rwa [if_pos goes] at step
        case isFalse ends =>
          rw [if_neg ends] at step
          rw [fresh_observe]
          exact step
      | false =>
        simp only [next,History.next,here,cmd,commits]
        exact read_valid (c := c) (d := c.defaults g mine t data input) seen idle rfl rfl (address here (.inr ⟨cmd,commits⟩))
  | sRead =>
    simp only [Stage,here] at stage
    simp only [next,History.next,here]
    exact ⟨seen.again stage.1 stage.2,by simp⟩
  | sPreSharedRead =>
    simp only [Stage,here] at stage
    simp only [next,History.next,here]
    split
    case isTrue => exact ⟨seen,stage⟩
    case isFalse =>
      refine ⟨seen,?_⟩
      simp only [defaults,here]
      exact stage
  | sSharedRead =>
    simp only [Stage,here] at stage
    obtain ⟨space,same,free⟩ := stage
    have unhit : (t.writes && !mine && (h.shared ++ [h.asked]).contains t.sharedmemwraddr) =
        (t.writes && !mine && h.shared.contains t.sharedmemwraddr) := by
      cases writes : t.writes with
      | false => rfl
      | true =>
        have apart := window here writes
        rw [same] at apart
        simp [apart]
    have added := seen.addRead space (same ▸ free) data (fetched here)
    simp only [next,History.next,here]
    refine ⟨?_,by simp⟩
    rw [History.observe,unhit]
    rw [same] at added ⊢
    exact added
  | sPreCommit =>
    simp only [Stage,here] at stage
  | sCommit => exact transfer_valid recorded stage here kept
end Step

def Core.progress (c : Core) : Nat := if c.sReg = .sCommit then c.bufmemrdaddrReg else 0

structure Transferred (c : Core) (base mem : Nat → Word 4) : Prop where
  done : ∀ {j}, j < c.progress → c.buf.bufwrs j = true → mem (c.buf.bufaddrs j) = c.buf.bufmem j
  rest : ∀ {a}, (∀ j < c.progress, c.buf.bufwrs j = true → c.buf.bufaddrs j ≠ a) → mem a = base a

theorem Transferred.none (idle : c.progress = 0) : Transferred c base base where
  done passed := by rw [idle] at passed; exact absurd passed (not_lt_zero _)
  rest _ := rfl

theorem Transferred.exec (transferred : Transferred c base mem) (valid : Valid g c h base) (commits : c.sReg = .sCommit)
    (clear : c.bufconflict = false) (ends : c.bufmemrdaddrReg = c.buf.bufnxt) : exec base h.ops = some mem := by
  have stage := valid.stage
  simp only [Stage,commits] at stage
  have passed : c.progress = c.buf.bufnxt := by rw [progress,if_pos commits,ends]
  obtain ⟨needs,leaves,tracks,agrees⟩ := valid.recorded.tracked stage.2.1
  rw [tracks.summary base (agrees clear)]
  apply congrArg some
  funext a
  cases left : leaves a with
  | none =>
    rw [transferred.rest]
    · simp [overlay,left]
    · rintro j inside written rfl
      rw [passed] at inside
      cases left.symm.trans (tracks.written inside written)
  | some v =>
    obtain ⟨j,inside,rfl,written⟩ := tracks.left left
    obtain rfl := Option.some.inj (left.symm.trans (tracks.written inside written))
    rw [← passed] at inside
    simp [overlay,left,transferred.done inside written]

theorem Transferred.nothing (transferred : Transferred c base mem) (idle : c.progress = 0) : mem = base := by
  funext a
  apply transferred.rest
  intro j passed
  rw [idle] at passed
  exact absurd passed (not_lt_zero j)

section Core
variable {g : Config} {c : Core} {mine : Bool} {t : Turn} {data : Word 4} {input : OcpCoreMasterSignals 4}

theorem next_idle (here : c.sReg = .sIdle) :
    (c.next g mine t data input).sReg = .sIdle ∨ (c.next g mine t data input).sReg = .sRead ∨
      (c.next g mine t data input).sReg = .sPreSharedRead ∨
      (c.next g mine t data input).sReg = .sCommit ∧ (c.next g mine t data input).bufmemrdaddrReg = 0 := by
  simp only [next,here]
  cases (c.request g input).cmd with
  | idle => exact .inl here
  | wr =>
    refine .inl ?_
    simp only [write]
    split
    · exact here
    · split <;> exact here
  | rd =>
    dsimp only
    split
    · unfold commit
      split
      · exact .inl here
      · exact .inr (.inr (.inr ⟨rfl,rfl⟩))
    · simp only [Core.read]
      split
      · exact .inr (.inl rfl)
      · split
        · exact .inl here
        · exact .inr (.inr (.inl rfl))

theorem next_progress (still : mine = true → c.sReg = .sCommit → c.bufconflict = false → c.bufmemrdaddrReg = c.buf.bufnxt) :
    (c.next g mine t data input).progress = 0 := by
  unfold progress
  split
  case isFalse => rfl
  case isTrue commits =>
    cases here : c.sReg with
    | sIdle =>
      rcases next_idle here with other | other | other | first
      · cases commits.symm.trans other
      · cases commits.symm.trans other
      · cases commits.symm.trans other
      · exact first.2
    | sRead => simp [next,here] at commits
    | sPreSharedRead =>
      simp only [next,here] at commits
      split at commits <;> simp [defaults,here] at commits
    | sSharedRead => simp [next,here] at commits
    | sPreCommit => simp [next,here,defaults] at commits
    | sCommit =>
      simp only [next,here] at commits ⊢
      split at commits
      case isTrue due =>
        have ends : c.bufmemrdaddrReg = c.buf.bufnxt ∨ c.bufconflict = true := by
          cases clear : c.bufconflict with
          | true => exact .inr rfl
          | false => exact .inl (still (by simpa [clear] using due) here clear)
        simp [transfer,ends] at commits
      case isFalse wait =>
        rw [if_neg wait]
        rfl

theorem next_reading (reads : (c.next g mine t data input).sReg = .sSharedRead) :
    mine = true ∧ (c.next g mine t data input).memrdaddrReg = c.memrdaddrReg := by
  cases here : c.sReg with
  | sIdle =>
    rcases next_idle here with other | other | other | other
    · cases reads.symm.trans other
    · cases reads.symm.trans other
    · cases reads.symm.trans other
    · cases reads.symm.trans other.1
  | sRead => simp [next,here] at reads
  | sPreSharedRead =>
    simp only [next,here] at reads ⊢
    split at reads
    case isTrue turn =>
      rw [if_pos turn]
      exact ⟨turn,rfl⟩
    case isFalse => simp [defaults,here] at reads
  | sSharedRead => simp [next,here] at reads
  | sPreCommit => simp [next,here,defaults] at reads
  | sCommit =>
    simp only [next,here] at reads
    split at reads
    · simp only [transfer] at reads
      split at reads <;> simp [defaults,here] at reads
    · simp [defaults,here] at reads

theorem next_succeeds (succeeds : c.succeeds (c.next g mine t data input) = true) :
    c.sReg = .sCommit ∧ c.bufconflict = false ∧ c.bufmemrdaddrReg = c.buf.bufnxt := by
  simp only [Core.succeeds,Bool.and_eq_true,decide_eq_true_iff] at succeeds
  obtain ⟨⟨here,answered⟩,good⟩ := succeeds
  refine ⟨here,?_⟩
  simp only [Core.next,here] at answered good
  split at answered
  case isFalse => cases answered
  case isTrue due =>
    rw [if_pos due] at good
    by_cases ends : c.bufmemrdaddrReg = c.buf.bufnxt ∨ c.bufconflict = true
    · cases conflict : c.bufconflict with
      | true =>
        simp only [Core.transfer,conflict,or_true,if_true,Core.respond] at good
        exact absurd (congrFun good ⟨0,by decide⟩) (by decide)
      | false => exact ⟨rfl,ends.resolve_right (by simp [conflict])⟩
    · simp [Core.transfer,ends,Core.defaults] at answered

theorem next_transfers (turn : mine = true) (here : c.sReg = .sCommit) (clear : c.bufconflict = false)
    (inside : c.bufmemrdaddrReg < c.buf.bufnxt) (room : c.buf.bufnxt < g.bufsize) :
    (c.next g mine t data input).progress = c.bufmemrdaddrReg+1 ∧ (c.next g mine t data input).buf = c.buf := by
  have goes : ¬(c.bufmemrdaddrReg = c.buf.bufnxt ∨ c.bufconflict = true) := by
    rintro (ends | conflict)
    · exact Nat.ne_of_lt inside ends
    · cases clear.symm.trans conflict
  simp only [next,here,turn,transfer,goes,index_next inside room]
  exact ⟨if_pos here,rfl⟩
end Core

section Run
variable {g : Config} {s : State cores} {input : Fin (cores+1) → OcpCoreMasterSignals 4}

abbrev State.after (g : Config) (s : State cores) (input : Fin (cores+1) → OcpCoreMasterSignals 4) := (system cores g).next s input

abbrev State.active (s : State cores) : Core := s.memory.core s.memory.corecur

-- What a core sees of the shared memory. The core with the turn sees it without its own transfer.
def State.view (s : State cores) (base : Nat → Word 4) (i : Fin (cores+1)) : Nat → Word 4 :=
  if i = s.memory.corecur then base else s.memory.sharedmem

def Condition (g : Config) (s : State cores) (input : Fin (cores+1) → OcpCoreMasterSignals 4) : Prop :=
  ∀ i, Sound g (s.memory.core i) ((s.memory.core i).request g (input i)) s.memory.turn

structure Serial (g : Config) (s : State cores) (base : Nat → Word 4) : Prop where
  replay : serial s.initial (s.committed.map Transaction.ops) = some base
  transferred : Transferred (s.memory.core s.memory.corecur) base s.memory.sharedmem
  valid : ∀ i, Valid g (s.memory.core i) (s.history i) (s.view base i)
  reading : ∀ i, (s.memory.core i).sReg = .sSharedRead → s.memory.sharedmemrdaddrReg = (s.memory.core i).memrdaddrReg
  waiting : ∀ i, i ≠ s.memory.corecur → (s.memory.core i).progress = 0
  clean : ∀ x ∈ s.committed, x.overtaken = false

theorem serial_start (begun : (system cores g).start s) : Serial g s s.memory.sharedmem := by
  obtain ⟨nothing,initial,_,cores⟩ := begun
  have idle : ∀ i, (s.memory.core i).progress = 0 := fun i => by rw [progress,(cores i).1]; rfl
  refine ⟨?_,.none (idle _),fun i => ?_,fun i reads => ?_,fun i _ => idle i,fun x member => ?_⟩
  · rw [nothing,initial]
    rfl
  · obtain ⟨here,clear,complete,empty,unread,unwritten,fresh⟩ := cores i
    refine ⟨?_,by simp [here]⟩
    rw [clear,complete,fresh,← Buffer.clear_empty _ empty unread unwritten]
    exact .clear g _ ⟨[],[],false,0⟩ _
  · rw [(cores i).1] at reads
    cases reads
  · rw [nothing] at member
    cases member

theorem view_settled (s : State cores) (i : Fin (cores+1)) : s.view s.memory.sharedmem i = s.memory.sharedmem := by
  unfold State.view
  split <;> rfl

theorem view_other (base : Nat → Word 4) (other : i ≠ s.memory.corecur) : s.view base i = s.memory.sharedmem := if_neg other

theorem fetched (inv : Serial g s base) (i : Fin (cores+1)) (reads : (s.memory.core i).sReg = .sSharedRead) :
    s.memory.sharedmem (s.memory.core i).memrdaddrReg = s.memory.sharedmemrddata := by
  rw [← inv.reading i reads]
  rfl

theorem reading_step (i : Fin (cores+1)) (reads : ((s.after g input).memory.core i).sReg = .sSharedRead) :
    (s.after g input).memory.sharedmemrdaddrReg = ((s.after g input).memory.core i).memrdaddrReg := by
  obtain ⟨turn,same⟩ := next_reading reads
  obtain rfl := of_decide_eq_true turn
  exact same.symm

def State.succeeds (g : Config) (s : State cores) (input : Fin (cores+1) → OcpCoreMasterSignals 4) : Bool :=
  (s.memory.core s.memory.corecur).succeeds ((s.memory.next g input).core s.memory.corecur)

theorem log_next : (s.after g input).committed = s.committed ++ if s.succeeds g input then
    [⟨s.memory.corecur,(s.history s.memory.corecur).ops,(s.history s.memory.corecur).overtaken⟩] else [] := rfl

theorem log_kept (failed : s.succeeds g input = false) : (s.after g input).committed = s.committed := by
  rw [log_next,failed,if_neg Bool.false_ne_true,append_nil]

theorem memory_kept (unwritten : s.memory.turn.writes = false) :
    (s.after g input).memory.sharedmem = s.memory.sharedmem := by
  show (if s.memory.turn.writes then _ else _) = _
  rw [unwritten]
  rfl

theorem view_kept (unwritten : s.memory.turn.writes = false) (i : Fin (cores+1)) :
    (s.after g input).view s.memory.sharedmem i = s.memory.sharedmem := by
  have settled := view_settled (s.after g input) i
  rwa [memory_kept unwritten] at settled

theorem turn_commits (transfers : s.memory.turn.sharedmemwr = true) :
    s.active.sReg = .sCommit ∧ s.active.bufconflict = false := by
  simpa [Memory.turn,turn] using transfers

theorem Transferred.next (transferred : Transferred c base mem) (fits : Fits g c.buf) (commits : c.sReg = .sCommit)
    (inside : c.bufmemrdaddrReg < c.buf.bufnxt) (still : c'.progress = c.bufmemrdaddrReg+1) (buf : c'.buf = c.buf) :
    Transferred c' base (if c.buf.bufwrs c.bufmemrdaddrReg then
      Function.update mem (c.buf.bufaddrs c.bufmemrdaddrReg) (c.buf.bufmem c.bufmemrdaddrReg) else mem) := by
  have passed : c.progress = c.bufmemrdaddrReg := if_pos commits
  constructor
  · intro j before written
    rw [still] at before
    rw [buf] at written ⊢
    rcases Nat.lt_succ_iff_lt_or_eq.mp before with earlier | rfl
    · have kept := transferred.done (passed ▸ earlier) written
      split
      · rw [Function.update_of_ne,kept]
        intro same
        have equal := fits.distinct (earlier.trans inside) inside same
        omega
      · exact kept
    · rw [if_pos written,Function.update_self]
  · intro a apart
    rw [still,buf] at apart
    have before := @Transferred.rest _ _ _ transferred a fun j earlier => apart j (by omega)
    split
    case isTrue written =>
      rw [Function.update_of_ne (Ne.symm (apart _ (lt_succ_self _) written)),before]
    case isFalse => exact before

section
variable (inv : Serial g s base) (condition : Condition g s input)
include inv condition

theorem serial_quiet (quiet : s.memory.turn.sharedmemwr = false) :
    Serial g (s.after g input) base := by
  have unwritten : s.memory.turn.writes = false := by rw [Turn.writes,quiet]; rfl
  have unclear : s.active.sReg = .sCommit → s.active.bufconflict = true := by
    intro commits
    simpa [Memory.turn,turn,commits] using quiet
  have idle : s.active.progress = 0 := by
    unfold progress
    split
    case isFalse => rfl
    case isTrue commits =>
      have stage := (inv.valid s.memory.corecur).stage
      simp only [Stage,commits] at stage
      exact stage.2.2.2 (unclear commits)
  obtain rfl := inv.transferred.nothing idle
  have passed : ∀ i, ((s.after g input).memory.core i).progress = 0 := by
    intro i
    apply next_progress
    intro turn commits clear
    obtain rfl := of_decide_eq_true turn
    rw [unclear commits] at clear
    cases clear
  have log := log_kept (Bool.eq_false_iff.mpr fun succeeds : s.succeeds g input = true => by
    obtain ⟨commits,clear,_⟩ := next_succeeds succeeds
    rw [unclear commits] at clear
    cases clear)
  refine ⟨?_,?_,fun i => ?_,reading_step,fun i _ => passed i,?_⟩
  · rw [log]
    exact inv.replay
  · rw [memory_kept unwritten]
    exact .none (passed _)
  · rw [view_kept unwritten]
    have valid := inv.valid i
    rw [view_settled] at valid
    exact valid.step (condition i) (fun a => .inl rfl) (fetched inv i)
  · rw [log]
    exact inv.clean

theorem serial_finish (transfers : s.memory.turn.sharedmemwr = true) (ends : s.memory.turn.sharedmemwrfin = true) :
    Serial g (s.after g input) s.memory.sharedmem := by
  obtain ⟨commits,clear⟩ := turn_commits transfers
  have last : s.active.bufmemrdaddrReg = s.active.buf.bufnxt :=
    of_decide_eq_true ends
  have valid := inv.valid s.memory.corecur
  rw [State.view,if_pos rfl] at valid
  have unwritten : s.memory.turn.writes = false := by
    have unused := valid.recorded.fits.unusedWrite _ le_rfl
    simp [Turn.writes,Memory.turn,turn,last,unused]
  have succeeds : s.succeeds g input = true := by
    simp [State.succeeds,Core.succeeds,Memory.next,Core.next,commits,clear,last,Core.transfer,Core.respond]
  have log := @log_next _ g s input
  rw [if_pos succeeds] at log
  have passed : ∀ i, ((s.after g input).memory.core i).progress = 0 := by
    intro i
    apply next_progress
    intro turn _ _
    obtain rfl := of_decide_eq_true turn
    exact last
  refine ⟨?_,?_,fun i => ?_,reading_step,fun i _ => passed i,?_⟩
  · rw [log,map_append]
    exact serial_concat inv.replay (inv.transferred.exec valid commits clear last)
  · rw [memory_kept unwritten]
    exact .none (passed _)
  · rw [view_kept unwritten]
    by_cases mine : i = s.memory.corecur
    · subst mine
      exact finish_valid commits (by simp) (.inl last)
    · have other := inv.valid i
      rw [view_other base mine] at other
      exact other.step (condition i) (fun a => .inl rfl) (fetched inv i)
  · rw [log]
    intro x member
    rcases mem_append.mp member with old | new
    · exact inv.clean x old
    · cases mem_singleton.mp new
      apply Bool.eq_false_iff.mpr
      intro overtaken
      cases clear.symm.trans (valid.recorded.overtaken overtaken)

theorem serial_transfer (transfers : s.memory.turn.sharedmemwr = true) (more : s.memory.turn.sharedmemwrfin = false) :
    Serial g (s.after g input) base := by
  obtain ⟨commits,clear⟩ := turn_commits transfers
  have unfinished : s.active.bufmemrdaddrReg ≠ s.active.buf.bufnxt :=
    of_decide_eq_false more
  have valid := inv.valid s.memory.corecur
  have stage := valid.stage
  simp only [Stage,commits] at stage
  obtain ⟨room,_,within,_⟩ := stage
  have inside := lt_of_le_of_ne within unfinished
  have turn : (s.after g input).memory.corecur = s.memory.corecur := by
    show (if (s.memory.turn.sharedmemwr && !s.memory.turn.sharedmemwrfin) then _ else _) = _
    rw [transfers,more]
    rfl
  have log := log_kept (Bool.eq_false_iff.mpr fun succeeds : s.succeeds g input = true =>
    unfinished (next_succeeds succeeds).2.2)
  obtain ⟨passed,buf⟩ := @next_transfers g _ _ s.memory.turn s.memory.sharedmemrddata (input s.memory.corecur)
    (decide_eq_true (rfl : s.memory.corecur = s.memory.corecur)) commits clear inside room
  have moved : (s.after g input).memory.sharedmem = if s.memory.turn.writes then
    Function.update s.memory.sharedmem s.memory.turn.sharedmemwraddr s.memory.turn.sharedmemwrdata else s.memory.sharedmem := rfl
  have writes : s.memory.turn.writes = s.memory.turn.bufwr := by rw [Turn.writes,transfers,Bool.true_and]
  refine ⟨?_,?_,fun i => ?_,reading_step,fun i other => ?_,?_⟩
  · rw [log]
    exact inv.replay
  · rw [moved,writes,turn]
    exact inv.transferred.next valid.recorded.fits commits inside passed buf
  · by_cases mine : i = s.memory.corecur
    · subst mine
      rw [State.view,if_pos rfl] at valid
      rw [State.view,if_pos turn.symm]
      exact valid.step (condition _) (fun a => .inl rfl) fun reads => nomatch commits.symm.trans reads
    · have others := inv.valid i
      rw [view_other base mine] at others
      rw [view_other base (turn ▸ mine),moved]
      refine others.step (condition i) (fun a => ?_) fun reads => ?_
      · cases written : s.memory.turn.writes with
        | false => exact .inl rfl
        | true =>
          by_cases same : a = s.memory.turn.sharedmemwraddr
          · exact .inr ⟨by simp [mine],same⟩
          · exact .inl (Function.update_of_ne same _ _)
      · rw [← fetched inv i reads]
        cases written : s.memory.turn.writes with
        | false => rfl
        | true => exact Function.update_of_ne (Ne.symm ((condition i).2.2 reads written)) _ _
  · apply next_progress
    intro mine
    exact absurd (of_decide_eq_true mine) (turn ▸ other)
  · rw [log]
    exact inv.clean

theorem serial_step : ∃ after, Serial g (s.after g input) after := by
  cases transfers : s.memory.turn.sharedmemwr with
  | false => exact ⟨base,serial_quiet inv condition transfers⟩
  | true =>
    cases ends : s.memory.turn.sharedmemwrfin with
    | false => exact ⟨base,serial_transfer inv condition transfers ends⟩
    | true => exact ⟨s.memory.sharedmem,serial_finish inv condition transfers ends⟩
end

theorem reached_serial (path : Reached ((system cores g).restrict (Condition g)) s) : ∃ base, Serial g s base := by
  apply path.invariant
  · exact fun s begun => ⟨_,serial_start begun⟩
  · rintro s input ⟨base,inv⟩ ⟨_,condition⟩
    exact serial_step inv condition
end Run

instance decidableSound (g : Config) (c : Core) (m : OcpCoreMasterSignals 4) (t : Turn) : Decidable (Sound g c m t) :=
  inferInstanceAs (Decidable ((_ → _) ∧ (_ → _) ∧ (_ → _)))

-- The committed transactions, one after the other in the order of their commits, return what they returned and leave
-- the memory as it is when no transfer is under way.
theorem transactions_serializable (cores : Nat) (g : Config) {s : State cores}
    (path : Reached ((system cores g).restrict (Condition g)) s) :
    (∃ final, serial s.initial (s.committed.map Transaction.ops) = some final ∧
      ((∀ i, (s.memory.core i).progress = 0) → s.memory.sharedmem = final)) ∧
    ∀ x ∈ s.committed, x.overtaken = false := by
  obtain ⟨base,inv⟩ := reached_serial path
  exact ⟨⟨base,inv.replay,fun idle => inv.transferred.nothing (idle _)⟩,inv.clean⟩

instance decidableAdmits (g : Config) (s : State cores) (input : Fin (cores+1) → OcpCoreMasterSignals 4) :
    Decidable (((system cores g).restrict (Condition g)).admits s input) :=
  inferInstanceAs (Decidable (True ∧ ∀ i, Sound g (s.memory.core i) ((s.memory.core i).request g (input i)) s.memory.turn))

def defaultConfig : Config := ⟨128,16,true⟩

def one : Word 4 := fun _ => 1#8

def wait : OcpCoreMasterSignals 4 := ⟨.idle,0,zero,fun _ => true⟩
def store (word : Nat) : OcpCoreMasterSignals 4 := ⟨.wr,4*word,one,fun _ => true⟩
def load (word : Nat) : OcpCoreMasterSignals 4 := ⟨.rd,4*word,zero,fun _ => true⟩

def Core.initial : Core :=
  ⟨wait,0,⟨fun _ => 0,fun _ => false,fun _ => false,0,fun _ => zero⟩,0,false,.sIdle,⟨.null,zero⟩,false⟩

def State.initially (cores : Nat) : State cores :=
  ⟨⟨⟨0,succ_pos cores⟩,fun _ => zero,0,fun _ => .initial⟩,fun _ => ⟨[],[],false,0⟩,[],fun _ => zero⟩

def pair (left right : OcpCoreMasterSignals 4) : Fin 2 → OcpCoreMasterSignals 4 := fun i => if i.val = 0 then left else right

-- Core 0 writes word 1 and reads word 0, core 1 writes word 0 and reads word 1.
def crossing (delay : Nat) : List (Fin 2 → OcpCoreMasterSignals 4) :=
  [pair (store 1) (store 0),pair wait wait,pair wait (load 1),pair wait wait,pair wait wait,pair wait wait] ++
  if delay = 0 then
    [pair (load 0) wait,pair wait (load 0x3FFF),pair wait wait,pair wait wait,pair (load 0x3FFF) wait] ++
      replicate 4 (pair wait wait)
  else
    [pair wait wait,pair wait (load 0x3FFF),pair (load 0) wait] ++ replicate 5 (pair wait wait) ++
      [pair (load 0x3FFF) wait] ++ replicate 4 (pair wait wait)

def alone (commands : List (OcpCoreMasterSignals 4)) : List (Fin 1 → OcpCoreMasterSignals 4) := commands.map fun m _ => m

theorem initially_start (cores : Nat) (g : Config) : (system cores g).start (.initially cores) :=
  ⟨rfl,rfl,rfl,fun _ => ⟨rfl,rfl,rfl,rfl,fun _ => rfl,fun _ => rfl,rfl⟩⟩

theorem run_reached (cores : Nat) (g : Config) (inputs : List (Fin (cores+1) → OcpCoreMasterSignals 4)) :
    Reached (system cores g) ((system cores g).run (.initially cores) inputs) := by
  have admitted : ∀ s, (system cores g).Admits s inputs := by
    induction inputs with
    | nil => exact fun _ => trivial
    | cons input rest ih => exact fun _ => ⟨trivial,ih _⟩
  exact (Reached.start (initially_start cores g)).run inputs (admitted _)

theorem transactions_serializable_crossing :
    (((system 1 defaultConfig).restrict (Condition defaultConfig)).run (.initially 1) (crossing 1)).committed.length = 2 ∧
    ∀ x ∈ (((system 1 defaultConfig).restrict (Condition defaultConfig)).run (.initially 1) (crossing 1)).committed,
      x.overtaken = false :=
  ⟨by decide +kernel,(transactions_serializable 1 defaultConfig
    (Reached.run (m := (system 1 defaultConfig).restrict (Condition defaultConfig))
      (.start (initially_start 1 defaultConfig)) (crossing 1) (by decide +kernel))).2⟩

-- Core 0 reads word 0 in the cycle in which the commit of core 1 writes it: both commit, although either order would
-- have shown one of them the write of the other. Word 128 of 128 words is written and then read as it was before. The
-- commit of a full buffer starts over and over.
theorem crossing_unserializable :
    (∀ cores g inputs, Reached (system cores g) ((system cores g).run (.initially cores) inputs)) ∧
    ((system 1 defaultConfig).run (.initially 1) (crossing 0)).committed.map (fun x => (x.core.val,x.ops,x.overtaken)) =
        [(1,[.write 0 one,.read 1 zero],false),(0,[.write 1 one,.read 0 zero],true)] ∧
    (serial (fun _ => zero) [[.write 0 one,.read 1 zero],[.write 1 one,.read 0 zero]]).isNone = true ∧
    (serial (fun _ => zero) [[.write 1 one,.read 0 zero],[.write 0 one,.read 1 zero]]).isNone = true ∧
    ((system 0 defaultConfig).run (.initially 0)
      (alone [store 128,load 128,wait,wait,load 0x3FFF,wait,wait,wait,wait])).committed.map Transaction.ops = [[.write 128 one,.read 128 zero]] ∧
    ((system 0 ⟨128,2,true⟩).run (.initially 0) (alone [store 0,store 1,load 0x3FFF,wait,wait,wait])).committed.length = 0 ∧
    ((system 0 ⟨128,2,true⟩).run (.initially 0)
      (alone [store 0,store 1,load 0x3FFF,wait,wait,wait])).memory.sharedmem 0 = one := by
  exact ⟨run_reached,by decide +kernel,by decide +kernel,by decide +kernel,by decide +kernel,by decide +kernel,
    by decide +kernel⟩
end Patmos.TransactionalMemory
