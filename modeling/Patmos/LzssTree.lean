import Mathlib.Algebra.Group.Nat.Defs
import Patmos.PointerSurgery
namespace Patmos.Lzss
open PointerForest Links BitVec Nat Option

abbrev Byte := BitVec 8

def indexBits : Nat := 10
def lengthBits : Nat := 16-indexBits
def threshold : Nat := 2

def N : Nat := 2^indexBits
def F : Nat := 2^lengthBits+threshold
def NIL : Nat := N

theorem N_eq : N = 1024 := by decide
theorem F_eq : F = 66 := by decide

attribute [irreducible] N F

-- Accesses behind the end of an array have no result.
def textAt (textBuf : Nat → Byte) (i : Nat) : Option Byte := if i < N+F-1 then some (textBuf i) else none

section
variable (t : Links) (right : Bool) (p v : Nat)

-- The array rchild has room for the roots of 256 trees.
def size : Nat := if right then N+257 else N+1

def childAt (p : Nat) : Option Nat := if p < size right then some (t.child right p) else none

def putChild : Option Links := if p < size right then some (t.setChild right p v) else none

def parentAt (p : Nat) : Option Nat := if p < N+1 then some (t.parent p) else none

def putParent : Option Links := if p < N+1 then some (t.setParent p v) else none

structure Search where
  tree : Links
  matchPosition : Nat
  matchLength : Nat

-- The passes of the loop over i that are left.
def compareFrom (textBuf : Nat → Byte) (keyPos p : Nat) : Nat → Nat → Int → Option (Nat × Int)
  | 0,i,cmp => some (i,cmp)
  | left+1,i,_ => do
      let cmp := (← textAt textBuf (keyPos+i)).toInt-(← textAt textBuf (p+i)).toInt
      if cmp ≠ 0 then return (i,cmp) else compareFrom textBuf keyPos p left (i+1) cmp

def replaceNode (r p : Nat) : Option Links := do
  let t ← putParent t r (← parentAt t p)
  let t ← putChild t false r (← childAt t false p)
  let t ← putChild t true r (← childAt t true p)
  let t ← putParent t (← childAt t false p) r
  let t ← putParent t (← childAt t true p) r
  let u ← parentAt t p
  let t ← putChild t ((← childAt t true u) = p) u r
  putParent t p NIL
end

def insertLoop (textBuf : Nat → Byte) (r : Nat) : Nat → Nat → Int → Search → Option Search
  | 0,_,_,_ => none
  | fuel+1,p,cmp,s => do
      let right : Bool := 0 ≤ cmp
      let c ← childAt s.tree right p
      if c = NIL then
        let t ← putChild s.tree right p r
        return {s with tree := ← putParent t r p}
      else
        let (i,cmp) ← compareFrom textBuf r c (F-1) 1 cmp
        if s.matchLength < i then
          if F ≤ i then return ⟨← replaceNode s.tree r c,c,i⟩
          else insertLoop textBuf r fuel c cmp ⟨s.tree,c,i⟩
        else insertLoop textBuf r fuel c cmp s

-- A branch has at most N nodes.
def insertNode (textBuf : Nat → Byte) (r : Nat) (s : Search) : Option Search := do
  let p := N+1+(← textAt textBuf r).toNat
  let t ← putChild s.tree true r NIL
  let t ← putChild t false r NIL
  insertLoop textBuf r (N+1) p 1 ⟨t,s.matchPosition,0⟩

def rightmost (t : Links) : Nat → Nat → Option Nat
  | 0,_ => none
  | fuel+1,q => do
      let q ← childAt t true q
      if (← childAt t true q) ≠ NIL then rightmost t fuel q else return q

def takePlace (t : Links) (p q : Nat) : Option Links := do
  let t ← putParent t q (← parentAt t p)
  let u ← parentAt t p
  let t ← putChild t ((← childAt t true u) = p) u q
  putParent t p NIL

def takeRight (t : Links) (p q : Nat) : Option Links := do
  let t ← putChild t true q (← childAt t true p)
  let t ← putParent t (← childAt t true p) q
  takePlace t p q

def detachNode (t : Links) (p q : Nat) : Option Links := do
  let t ← putChild t true (← parentAt t q) (← childAt t false q)
  let t ← putParent t (← childAt t false q) (← parentAt t q)
  let t ← putChild t false q (← childAt t false p)
  putParent t (← childAt t false p) q

def deleteNode (t : Links) (p : Nat) : Option Links := do
  if (← parentAt t p) = NIL then return t
  else if (← childAt t true p) = NIL then takePlace t p (← childAt t false p)
  else if (← childAt t false p) = NIL then takePlace t p (← childAt t true p)
  else
    let q ← childAt t false p
    if (← childAt t true q) ≠ NIL then
      let q ← rightmost t N q
      takeRight (← detachNode t p q) p q
    else takeRight t p q

section Access
variable {t : Links}

theorem childAt_eq (inside : p < size right) : childAt t right p = some (t.child right p) := if_pos inside

theorem putChild_eq (inside : p < size right) (v : Nat) : putChild t right p v = some (t.setChild right p v) := if_pos inside

theorem parentAt_eq (inside : p ≤ N) : parentAt t p = some (t.parent p) := if_pos (lt_succ_of_le inside)

theorem putParent_eq (inside : p ≤ N) (v : Nat) : putParent t p v = some (t.setParent p v) := if_pos (lt_succ_of_le inside)

theorem node_size (inside : p < N) (right : Bool) : p < size right := by
  cases right with
  | true => exact Nat.lt_add_right 257 inside
  | false => exact Nat.lt_add_right 1 inside
end Access

-- Every tree holds strings that begin with the same byte.
def Trees (textBuf : Nat → Byte) (t : Links) : Prop := Forest N 256 (fun p => (textBuf p).toNat) t

section Spec
variable {textBuf textBuf' : Nat → Byte} {t : Links} {level : Nat → Nat}

theorem takePlace_eq (inside : p < N) (bound : q ≤ N) (differ : p ≠ q)
    (room : t.parent p < size true ∧ t.parent p < size (t.child true (t.parent p) = p)) :
    takePlace t p q = some (t.substitute N p q) := by
  have small := inside.le
  have up : (t.setParent q (t.parent p)).parent p = t.parent p := by
    rw [parent_setParent,if_neg differ]
  simp only [takePlace,parentAt_eq small,putParent_eq bound,bind_eq_bind,bind_some,up,
    childAt_eq room.1,child_setParent,putChild_eq room.2,putParent_eq small]
  simp only [substitute,up]
  rfl

theorem takeRight_eq (inside : p < N) (bound : q < N) (differ : p ≠ q) (above : t.parent p ≠ q)
    (right : t.child true p ≤ N) (below : t.child true p ≠ p)
    (room : t.parent p < size true ∧ t.parent p < size (t.child true (t.parent p) = p)) :
    takeRight t p q = some (t.promote N p q) := by
  have here := node_size inside true
  have there := node_size bound true
  have same : (t.setChild true q (t.child true p)).child true p = t.child true p := by
    rw [child_setChild,if_neg (fun wrong => differ wrong.2)]
  simp only [takeRight,childAt_eq here,putChild_eq there,bind_eq_bind,bind_some,same,putParent_eq right]
  have up : ((t.setChild true q (t.child true p)).setParent (t.child true p) q).parent p = t.parent p := by
    rw [parent_setParent,if_neg (Ne.symm below),parent_setChild]
  have hand : ((t.setChild true q (t.child true p)).setParent (t.child true p) q).child true (t.parent p) =
      t.child true (t.parent p) := by
    rw [child_setParent,child_setChild,if_neg (fun wrong => above wrong.2)]
  rw [takePlace_eq inside bound.le differ (by rw [up,hand]; exact room)]
  simp only [promote,same]

section
variable (trees : Trees textBuf t)
include trees

theorem Trees.child_le (live : t.Live N p) (right : Bool) : t.child right p ≤ N := by
  by_cases none : t.child right p = N
  · exact le_of_eq none
  · exact le_of_lt (@Forest.down _ _ _ _ trees right p (.inl live) none).1.1

theorem Trees.write (kept : ∀ p, t.Live N p → textBuf' p = textBuf p) : Trees textBuf' t :=
  trees.rekey fun p live => congrArg BitVec.toNat (kept p live)

theorem Trees.hand_size (live : t.Live N p) :
    t.parent p < size true ∧ t.parent p < size (t.child true (t.parent p) = p) := by
  rcases trees.above live with node | root
  · exact ⟨node_size node.1 _,node_size node.1 _⟩
  · obtain ⟨hand,owner | ⟨rfl,_⟩,here⟩ := trees.up live
    · exact ⟨node_size owner.1 _,node_size owner.1 _⟩
    · rw [decide_eq_true here]
      have bound : t.parent p < size true := root.2.trans_lt (Nat.add_lt_add_left (by decide) N)
      exact ⟨bound,bound⟩

theorem detachNode_eq (upper : t.Live N p) (lower : t.Live N q) (differ : p ≠ q)
    (node : t.Live N (t.parent q)) : detachNode t p q = some (t.detach p q) := by
  have small := lower.1.le
  have room := node_size node.1 true
  have left := trees.child_le lower false
  have first : (t.setChild true (t.parent q) (t.child false q)).child false q = t.child false q := by
    rw [child_setChild,if_neg (fun wrong => Bool.false_ne_true wrong.1)]
  have second : (t.setChild true (t.parent q) (t.child false q)).child false p = t.child false p := by
    rw [child_setChild,if_neg (fun wrong => Bool.false_ne_true wrong.1)]
  simp only [detachNode,parentAt_eq small,childAt_eq (node_size lower.1 false),childAt_eq (node_size upper.1 false),
    putChild_eq room,putChild_eq (node_size lower.1 false),bind_eq_bind,bind_some,first,second,
    parent_setChild,child_setParent,putParent_eq left]
  have third : (((t.setChild true (t.parent q) (t.child false q)).setParent (t.child false q) (t.parent q)).setChild false q
      (t.child false p)).child false p = t.child false p := by
    rw [child_setChild,if_neg (fun wrong => differ wrong.2),child_setParent,second]
  rw [third,putParent_eq (trees.child_le upper false)]
  simp only [detach,first,second,third,parent_setChild,child_setParent]

theorem replaceNode_eq (live : t.Live N p) (dead : ¬t.Live N r) (inside : r < N) :
    replaceNode t r p = some (t.succeed N p r) := by
  have near := trees.near live dead inside
  have small := live.1.le
  have room := trees.hand_size live
  simp only [replaceNode,succeed,parentAt_eq small,putParent_eq inside.le,bind_eq_bind,
    bind_some,childAt_eq (node_size live.1 _),putChild_eq (node_size inside _),child_setParent,
    child_setChild,near.differ,and_false,if_false,putParent_eq (trees.child_le live _),parent_setParent,
    parent_setChild,Ne.symm (near.below _),childAt_eq room.1,near.above,putChild_eq room.2,putParent_eq small]
  rfl

-- The last node on the way to the right. The fuel is enough, a level is below N.
theorem rightmost_spec (low : ∀ x, t.Live N x → level x < N)
    (grows : ∀ x, t.Live N x → t.Live N (t.parent x) → level (t.parent x) < level x) (fuel : Nat) (live : t.Live N q)
    (more : t.child true q ≠ N) (enough : N ≤ level q+fuel) :
    ∃ last, rightmost t fuel q = some last ∧ t.Live N last ∧ t.child true last = N ∧ t.Live N (t.parent last) ∧
      t.child true (t.parent last) = last ∧ level q ≤ level (t.parent last) ∧ textBuf last = textBuf q := by
  induction fuel generalizing q with
  | zero => exact absurd (low q live) enough.not_gt
  | succ fuel ih =>
    obtain ⟨next,up⟩ := @Forest.down _ _ _ _ trees true q (.inl live) more
    have deeper := grows _ next (up.symm ▸ live)
    have key := eq_of_toNat_eq (trees.same next (up.symm ▸ live))
    rw [up] at deeper key
    simp only [rightmost,childAt_eq (node_size live.1 true),childAt_eq (node_size next.1 true),bind_eq_bind,
      bind_some]
    by_cases ends : t.child true (t.child true q) = NIL
    · rw [if_neg (fun wrong => wrong ends)]
      exact ⟨_,rfl,next,ends,up.symm ▸ live,by rw [up],le_of_eq (by rw [up]),key.symm⟩
    · rw [if_pos ends]
      obtain ⟨last,found,facts,none,node,hangs,below,same⟩ := ih next ends (by omega)
      exact ⟨last,found,facts,none,node,hangs,le_trans deeper.le below,same.trans key.symm⟩

theorem deleteNode_spec (inside : p < N) :
    ∃ t', deleteNode t p = some t' ∧ Trees textBuf t' ∧ ∀ x, t'.Live N x ↔ t.Live N x ∧ x ≠ p := by
  have small := inside.le
  simp only [deleteNode,parentAt_eq small,childAt_eq (node_size inside _),bind_eq_bind,bind_some]
  by_cases unused : t.parent p = NIL
  · rw [if_pos unused]
    refine ⟨t,rfl,trees,fun x => ⟨fun live => ⟨live,?_⟩,And.left⟩⟩
    rintro rfl
    exact live.2 unused
  · rw [if_neg unused]
    have live : t.Live N p := ⟨inside,unused⟩
    have room := trees.hand_size live
    have outside : ∀ side, p ≠ t.child side p := fun side => Ne.symm (trees.child_ne live side)
    by_cases noRight : t.child true p = NIL
    · rw [if_pos noRight,takePlace_eq inside (trees.child_le live false) (outside false) room]
      exact ⟨_,rfl,@substituted _ _ _ _ _ _ false trees live rfl noRight⟩
    · rw [if_neg noRight]
      by_cases noLeft : t.child false p = NIL
      · rw [if_pos noLeft,takePlace_eq inside (trees.child_le live true) (outside true) room]
        exact ⟨_,rfl,@substituted _ _ _ _ _ _ true trees live rfl noLeft⟩
      · rw [if_neg noLeft]
        obtain ⟨left,up⟩ := @Forest.down _ _ _ _ trees false p (.inl live) noLeft
        obtain ⟨level,low,grows⟩ := trees.levels
        have deeper := grows _ left (up.symm ▸ live)
        have key := eq_of_toNat_eq (trees.same left (up.symm ▸ live))
        rw [up] at deeper key
        rw [childAt_eq (node_size left.1 true)]
        by_cases ends : t.child true (t.child false p) = NIL
        · have branch : Lower N t level p (t.child false p) := ⟨grows,live,left,deeper⟩
          simp only [bind_some,ends,ne_eq]
          rw [takeRight_eq inside left.1 branch.differ branch.above (trees.child_le live true) (trees.child_ne live true) room]
          exact ⟨_,rfl,promoted trees branch ends (congrArg BitVec.toNat key.symm) (promote_direct trees branch ends rfl)⟩
        · obtain ⟨q,found,lower,none,node,hangs,below,same⟩ := rightmost_spec trees low grows N left ends (le_add_left _ _)
          have under := deeper.trans_le below
          have branch : Lower N t level p q := ⟨grows,live,lower,under.trans (grows q lower node)⟩
          obtain ⟨above,right,hand⟩ := detach_frame trees branch node under
          simp only [bind_some,ne_eq,ends,found,
            detachNode_eq trees live lower branch.differ node]
          rw [takeRight_eq inside lower.1 branch.differ (above ▸ branch.above) (right ▸ trees.child_le live true)
            (right ▸ trees.child_ne live true) (by rw [above,hand]; exact room)]
          exact ⟨_,rfl,promoted trees branch none (congrArg BitVec.toNat (same.trans key.symm))
            (promote_deep trees branch none node hangs under)⟩
end

theorem textAt_eq (left : p < N) (right : i < F) : textAt textBuf (p+i) = some (textBuf (p+i)) := by
  apply if_pos
  omega

def Alike (textBuf : Nat → Byte) (p r length : Nat) : Prop := ∀ i < length, textBuf (p+i) = textBuf (r+i)

theorem compareFrom_spec (left : r < N) (right : p < N) (passes i : Nat) (cmp : Int) (alike : Alike textBuf p r i)
    (all : i+passes = F) : ∃ length order, compareFrom textBuf r p passes i cmp = some (length,order) ∧ i ≤ length ∧
      length ≤ F ∧ Alike textBuf p r length := by
  induction passes generalizing i cmp with
  | zero => exact ⟨i,cmp,rfl,le_rfl,le_of_eq all,alike⟩
  | succ passes ih =>
    have inside : i < F := by omega
    simp only [compareFrom,textAt_eq left inside,textAt_eq right inside,bind_eq_bind,bind_some]
    split
    case isTrue => exact ⟨i,_,rfl,le_rfl,inside.le,alike⟩
    case isFalse same =>
      have equal : textBuf (p+i) = textBuf (r+i) := by
        apply eq_of_toInt_eq
        omega
      obtain ⟨length,order,found,longer,facts⟩ := ih (i+1) _ (fun j below => by
        rcases Nat.lt_succ_iff_lt_or_eq.mp below with old | rfl
        · exact alike j old
        · exact equal) (by omega)
      exact ⟨length,order,found,le_trans (le_succ i) longer,facts⟩

def Found (textBuf : Nat → Byte) (t : Links) (r position length : Nat) : Prop :=
  length ≤ F ∧ (0 < length → t.Live N position ∧ Alike textBuf position r length)

-- What an insertion at r may do to the trees, and what it reports.
structure Inserted (textBuf : Nat → Byte) (t : Links) (r : Nat) (s : Search) : Prop where
  trees : Trees textBuf s.tree
  live : ∀ x, s.tree.Live N x → t.Live N x ∨ x = r
  found : Found textBuf t r s.matchPosition s.matchLength

def cleared (t : Links) (r : Nat) : Links := (t.setChild true r NIL).setChild false r NIL

theorem cleared_agree (dead : ¬t.Live N r) (inside : r < N) : Agree N 256 t (cleared t r) where
  parent p _ := by
    rw [cleared,parent_setChild,parent_setChild]
  child {side u} place := by
    have other : u ≠ r := by
      rintro rfl
      rcases place with live | root
      · exact dead live
      · exact absurd inside (not_lt.mpr root.2.1.le)
    rw [cleared,child_setChild,child_setChild,if_neg (fun wrong => other wrong.2),
      if_neg (fun wrong => other wrong.2)]

section Insert
variable (trees : Trees textBuf t) (dead : ¬t.Live N r) (inside : r < N)
include trees dead inside

theorem replaceNode_spec (live : t.Live N c) (alike : Alike textBuf c r F) :
    ∃ t', replaceNode (cleared t r) r c = some t' ∧ Inserted textBuf t r ⟨t',c,F⟩ := by
  have agree := cleared_agree dead inside
  have first := alike 0 (by rw [F_eq]; decide)
  have trees' : Trees textBuf (cleared t r) := trees.congr agree
  have live' := agree.live.mpr live
  have dead' := fun wrong => dead (agree.live.mp wrong)
  obtain ⟨forest,lives⟩ := succeeded trees' live' dead' inside (congrArg BitVec.toNat first.symm)
  refine ⟨_,replaceNode_eq trees' live' dead' inside,forest,fun x used => ?_,le_rfl,fun _ => ⟨live,alike⟩⟩
  rcases (lives x).mp used with ⟨old,_⟩ | new
  · exact .inl (agree.live.mp old)
  · exact .inr new

-- By induction on the fuel, which is enough as a level is below N.
theorem insertLoop_spec (low : ∀ x, t.Live N x → level x < N)
    (grows : ∀ x, t.Live N x → t.Live N (t.parent x) → level (t.parent x) < level x) (fuel p : Nat) (cmp : Int)
    (place : t.Place N 256 (0 ≤ cmp) p) (root : N < p → p = N+1+(textBuf r).toNat) (node : t.Live N p → textBuf p = textBuf r)
    (high : N < p → N < fuel) (enough : t.Live N p → N ≤ level p+fuel)
    (found : Found textBuf t r position length) (short : length < F) :
    ∃ s, insertLoop textBuf r fuel p cmp ⟨cleared t r,position,length⟩ = some s ∧ Inserted textBuf t r s := by
  induction fuel generalizing p cmp position length with
  | zero =>
    rcases place with live | outside
    · exact absurd (low p live) (not_lt.mpr (enough live))
    · exact absurd (high outside.2.1) (not_lt_zero N)
  | succ fuel ih =>
    have agree := cleared_agree dead inside
    have room : p < size (0 ≤ cmp) := by
      rcases place with live | outside
      · exact node_size live.1 _
      · rw [outside.1]
        exact outside.2.2.trans_lt (Nat.add_lt_add_left (by decide) N)
    simp only [insertLoop,childAt_eq room,bind_eq_bind,bind_some,agree.child place]
    by_cases free : t.child (0 ≤ cmp) p = NIL
    · rw [if_pos free,putChild_eq room,bind_some,putParent_eq inside.le]
      exact ⟨_,rfl,trees.attach dead inside place free root fun live => congrArg BitVec.toNat (node live),
        fun _ used => (Forest.attach_live inside place).mp used,found⟩
    · rw [if_neg free]
      generalize own : t.child (0 ≤ cmp) p = c at *
      obtain ⟨live,up⟩ := trees.down place (own ▸ free)
      rw [own] at live up
      have key : textBuf c = textBuf r := by
        rcases place with above | outside
        · have same := eq_of_toNat_eq (trees.same live (up.symm ▸ above))
          rw [up] at same
          exact same.symm.trans (node above)
        · have top := trees.rooted live (up.symm ▸ outside.2.1)
          rw [up,root outside.2.1] at top
          exact (eq_of_toNat_eq (add_left_cancel top)).symm
      have deeper : N ≤ level c+fuel := by
        rcases place with above | outside
        · have below := grows c live (up.symm ▸ above)
          have left := enough above
          rw [up] at below
          omega
        · exact Nat.le_trans (Nat.lt_succ_iff.mp (high outside.2.1)) (Nat.le_add_left _ _)
      obtain ⟨i,order,compared,some,most,alike⟩ := compareFrom_spec inside live.1 (F-1) 1 cmp
        (fun i first => by rw [lt_one_iff.mp first]; exact key) (by rw [F_eq])
      have next : ∀ {position length}, Found textBuf t r position length → length < F →
          ∃ s, insertLoop textBuf r fuel c order ⟨cleared t r,position,length⟩ = .some s ∧ Inserted textBuf t r s := by
        intro position length found short
        exact ih c order (.inl live) (fun outside => absurd live.1 (not_lt.mpr outside.le)) (fun _ => key)
          (fun outside => absurd live.1 (not_lt.mpr outside.le)) (fun _ => deeper) found short
      rw [compared,bind_some]
      by_cases longer : length < i
      · rw [if_pos longer]
        by_cases whole : F ≤ i
        · have exactly := most.antisymm whole
          subst exactly
          rw [if_pos whole]
          obtain ⟨t',replaced,facts⟩ := replaceNode_spec trees dead inside live alike
          rw [replaced]
          exact ⟨_,rfl,facts⟩
        · rw [if_neg whole]
          exact next ⟨most,fun _ => ⟨live,alike⟩⟩ (Nat.lt_of_not_le whole)
      · rw [if_neg longer]
        exact next found short

theorem insertNode_spec (position length : Nat) :
    ∃ s, insertNode textBuf r ⟨t,position,length⟩ = some s ∧ Inserted textBuf t r s := by
  obtain ⟨level,low,grows⟩ := trees.levels
  have key : textAt textBuf r = some (textBuf r) := textAt_eq inside (Nat.pos_of_ne_zero (by rw [F_eq]; decide))
  have bound : N+1+(textBuf r).toNat ≤ N+256 := by omega
  have outside : N < N+1+(textBuf r).toNat := by omega
  simp only [insertNode,key,bind_eq_bind,bind_some,putChild_eq (node_size inside _)]
  exact insertLoop_spec trees dead inside low grows (N+1) _ 1 (.inr ⟨rfl,outside,bound⟩) (fun _ => rfl)
    (fun live => absurd live.1 (not_lt.mpr outside.le)) (fun _ => lt_succ_self N)
    (fun live => absurd live.1 (not_lt.mpr outside.le)) ⟨zero_le F,fun wrong => absurd wrong (lt_irrefl 0)⟩
    (by rw [F_eq]; decide)
end Insert
end Spec
end Patmos.Lzss
