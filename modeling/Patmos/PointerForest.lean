import Mathlib.Data.Finset.Card
namespace PointerForest
open Equiv Finset Function

-- Binary trees in arrays. The nodes are 0 to n-1, n stands for no node, and the indices n+1 to n+roots hold the trees
-- in their right child.
structure Links where
  lchild : Nat → Nat
  rchild : Nat → Nat
  parent : Nat → Nat

namespace Links
section
variable (n : Nat) (t : Links) (r : Nat) (right : Bool) (u : Nat)

def child : Nat := if right then t.rchild u else t.lchild u

def Live (p : Nat) : Prop := p < n ∧ t.parent p ≠ n

-- The places a node can hang at.
def Place (n roots : Nat) (t : Links) (right : Bool) (u : Nat) : Prop :=
  t.Live n u ∨ right = true ∧ n < u ∧ u ≤ n+roots

def setChild (u v : Nat) : Links :=
  if right then {t with rchild := update t.rchild u v} else {t with lchild := update t.lchild u v}

def setParent (p u : Nat) : Links := {t with parent := update t.parent p u}

theorem child_setChild (u v : Nat) (side : Bool) (x : Nat) :
    (t.setChild right u v).child side x = if side = right ∧ x = u then v else t.child side x := by
  by_cases here : x = u
  · subst here
    cases right <;> cases side <;> simp [setChild,child]
  · cases right <;> cases side <;> simp [setChild,child,here]

theorem parent_setChild (u v : Nat) : (t.setChild right u v).parent = t.parent := by
  cases right <;> rfl

theorem child_setParent (p u : Nat) (side : Bool) (x : Nat) : (t.setParent p u).child side x = t.child side x := rfl

theorem parent_setParent (p u x : Nat) : (t.setParent p u).parent x = if x = p then u else t.parent x := by
  by_cases here : x = p
  · subst here
    simp [setParent]
  · simp [setParent,here]

-- A node without children is hung at a free place.
def attach : Links := (((t.setChild true r n).setChild false r n).setChild right u r).setParent r u

-- A node is taken out and its only child, if any, takes its place.
def unlink (q c : Nat) : Links where
  lchild x := if t.lchild x = q then c else t.lchild x
  rchild x := if t.rchild x = q then c else t.rchild x
  parent x := if x = q then n else if x = c then t.parent q else t.parent x
end

def rename (σ : Equiv.Perm Nat) (t : Links) : Links where
  lchild x := σ (t.lchild (σ.symm x))
  rchild x := σ (t.rchild (σ.symm x))
  parent x := σ (t.parent (σ.symm x))
end Links

variable {n roots : Nat} {key key' : Nat → Nat} {t t' : Links}

structure Forest (n roots : Nat) (key : Nat → Nat) (t : Links) : Prop where
  down : ∀ {right u}, t.Place n roots right u → t.child right u ≠ n →
    t.Live n (t.child right u) ∧ t.parent (t.child right u) = u
  up : ∀ {p}, t.Live n p → ∃ right, t.Place n roots right (t.parent p) ∧ t.child right (t.parent p) = p
  apart : ∀ {u}, t.Live n u → t.child false u = t.child true u → t.child false u = n
  rooted : ∀ {p}, t.Live n p → n < t.parent p → t.parent p = n+1+key p
  same : ∀ {p}, t.Live n p → t.Live n (t.parent p) → key (t.parent p) = key p
  ranked : ∃ rank : Nat → Nat, ∀ p, t.Live n p → t.Live n (t.parent p) → rank (t.parent p) < rank p

-- What an operation may leave behind in entries that are not in use does not matter.
structure Agree (n roots : Nat) (t t' : Links) : Prop where
  parent : ∀ p < n, t'.parent p = t.parent p
  child : ∀ {right u}, t.Place n roots right u → t'.child right u = t.child right u

theorem Agree.live (agree : Agree n roots t t') : t'.Live n p ↔ t.Live n p := by
  constructor
  · rintro ⟨inside,used⟩
    rw [agree.parent p inside] at used
    exact ⟨inside,used⟩
  · rintro ⟨inside,used⟩
    rw [← agree.parent p inside] at used
    exact ⟨inside,used⟩

theorem Agree.place (agree : Agree n roots t t') : t'.Place n roots right u ↔ t.Place n roots right u :=
  or_congr agree.live Iff.rfl

theorem Forest.congr (forest : Forest n roots key t) (agree : Agree n roots t t') : Forest n roots key t' := by
  have up : ∀ {p}, t'.Live n p → t'.parent p = t.parent p := fun live => agree.parent _ live.1
  refine ⟨?_,?_,?_,?_,?_,?_⟩
  · intro right u place some
    rw [agree.place] at place
    rw [agree.child place] at some ⊢
    obtain ⟨live,back⟩ := forest.down place some
    exact ⟨agree.live.mpr live,(agree.parent _ live.1).trans back⟩
  · intro p live
    obtain ⟨right,place,here⟩ := forest.up (agree.live.mp live)
    rw [up live]
    exact ⟨right,agree.place.mpr place,(agree.child place).trans here⟩
  · intro u live equal
    have old := agree.live.mp live
    rw [agree.child (.inl old),agree.child (.inl old)] at equal
    rw [agree.child (.inl old)]
    exact forest.apart old equal
  · intro p live root
    rw [up live] at root ⊢
    exact forest.rooted (agree.live.mp live) root
  · intro p live above
    rw [up live] at above ⊢
    exact forest.same (agree.live.mp live) (agree.live.mp above)
  · obtain ⟨rank,below⟩ := forest.ranked
    refine ⟨rank,fun p live above => ?_⟩
    rw [up live] at above ⊢
    exact below p (agree.live.mp live) (agree.live.mp above)

theorem Forest.rekey (forest : Forest n roots key t) (keys : ∀ p, t.Live n p → key' p = key p) : Forest n roots key' t where
  down := forest.down
  up := forest.up
  apart := forest.apart
  rooted live root := by rw [keys _ live,forest.rooted live root]
  same live above := by rw [keys _ live,keys _ above,forest.same live above]
  ranked := forest.ranked

namespace Forest
section
variable (forest : Forest n roots key t)
include forest

theorem above (live : t.Live n p) : t.Live n (t.parent p) ∨ n < t.parent p ∧ t.parent p ≤ n+roots := by
  obtain ⟨right,place | ⟨_,root⟩,_⟩ := forest.up live
  · exact .inl place
  · exact .inr root

theorem parent_ne (live : t.Live n p) : t.parent p ≠ p := by
  intro self
  obtain ⟨rank,below⟩ := forest.ranked
  have less := below p live (self.symm ▸ live)
  rw [self] at less
  exact lt_irrefl _ less

theorem place_unique (left : t.Place n roots r u) (right : t.Place n roots r' u')
    (some : t.child r u ≠ n) (same : t.child r u = t.child r' u') : r = r' ∧ u = u' := by
  have owner : u = u' := by
    rw [← (forest.down left some).2,← (forest.down right (same ▸ some)).2,same]
  subst owner
  refine ⟨?_,rfl⟩
  by_contra differ
  rcases left with live | ⟨rfl,root⟩
  · have equal : t.child false u = t.child true u := by
      cases r <;> cases r'
      · exact absurd rfl differ
      · exact same
      · exact same.symm
      · exact absurd rfl differ
    have none := forest.apart live equal
    cases r with
    | false => exact some none
    | true => exact some (equal.symm.trans none)
  · rcases right with live | ⟨rfl,_⟩
    · exact absurd live.1 (Nat.not_lt.mpr root.1.le)
    · exact differ rfl

-- Along a branch the nodes can be numbered below n.
theorem levels : ∃ level : Nat → Nat,
    (∀ p, t.Live n p → level p < n) ∧ ∀ p, t.Live n p → t.Live n (t.parent p) → level (t.parent p) < level p := by
  classical
  obtain ⟨rank,below⟩ := forest.ranked
  refine ⟨fun p => ((range n).filter fun x => rank x < rank p).card,fun p live => ?_,fun p live above => ?_⟩
  · have strict : ((range n).filter fun x => rank x < rank p) ⊂ range n := by
      refine ⟨filter_subset _ _,fun all => ?_⟩
      have self := all (mem_range.mpr live.1)
      exact lt_irrefl _ (mem_filter.mp self).2
    simpa using card_lt_card strict
  · apply card_lt_card
    have less := below p live above
    refine ⟨fun x member => ?_,fun all => ?_⟩
    · obtain ⟨inside,smaller⟩ := mem_filter.mp member
      exact mem_filter.mpr ⟨inside,smaller.trans less⟩
    · have self := all (mem_filter.mpr ⟨mem_range.mpr above.1,less⟩)
      exact lt_irrefl _ (mem_filter.mp self).2
end

section Attach
variable {r u : Nat} {right : Bool}

theorem attach_child (side : Bool) (x : Nat) :
    (t.attach n r right u).child side x = if side = right ∧ x = u then r else if x = r then n else t.child side x := by
  rw [Links.attach,Links.child_setParent,Links.child_setChild,Links.child_setChild,Links.child_setChild]
  cases side <;> simp

theorem attach_parent (x : Nat) : (t.attach n r right u).parent x = if x = r then u else t.parent x := by
  rw [Links.attach,Links.parent_setParent,Links.parent_setChild,Links.parent_setChild,Links.parent_setChild]

theorem attach_live (inside : r < n) (place : t.Place n roots right u) :
    (t.attach n r right u).Live n x ↔ t.Live n x ∨ x = r := by
  have some : u ≠ n := by
    rcases place with live | root
    · exact live.1.ne
    · exact root.2.1.ne'
  unfold Links.Live
  rw [attach_parent]
  by_cases here : x = r
  · simp [here,inside,some]
  · simp [here]

theorem attach (forest : Forest n roots key t) (dead : ¬t.Live n r) (inside : r < n) (place : t.Place n roots right u)
    (free : t.child right u = n) (root : n < u → u = n+1+key r) (node : t.Live n u → key u = key r) :
    Forest n roots key (t.attach n r right u) := by
  have other : u ≠ r := by
    rintro rfl
    rcases place with live | ⟨_,outside,_⟩
    · exact dead live
    · exact absurd inside (Nat.not_lt.mpr outside.le)
  have live : ∀ {x}, (t.attach n r right u).Live n x ↔ t.Live n x ∨ x = r := attach_live inside place
  have spot : ∀ {side x}, (t.attach n r right u).Place n roots side x ↔ t.Place n roots side x ∨ x = r := by
    intro side x
    unfold Links.Place
    rw [live]
    tauto
  have child := @attach_child n t r u right
  have parent : ∀ x, (t.attach n r right u).parent x = if x = r then u else t.parent x := attach_parent
  have kept : ∀ {p}, t.Live n p → (t.attach n r right u).parent p = t.parent p := by
    intro p old
    rw [parent,if_neg]
    rintro rfl
    exact dead old
  have above : ∀ {p}, t.Live n p → t.parent p ≠ r := by
    intro p old self
    rcases forest.above old with lives | outside
    · exact dead (self ▸ lives)
    · rw [self] at outside
      exact absurd inside (Nat.not_lt.mpr outside.1.le)
  refine ⟨?_,?_,?_,?_,?_,?_⟩
  · intro side x place' some
    rw [child] at some ⊢
    by_cases new : side = right ∧ x = u
    · rw [if_pos new]
      exact ⟨live.mpr (.inr rfl),by rw [parent,if_pos rfl,new.2]⟩
    · rw [if_neg new] at some ⊢
      by_cases self : x = r
      · rw [if_pos self] at some
        exact absurd rfl some
      · rw [if_neg self] at some ⊢
        obtain ⟨lives,back⟩ := forest.down ((spot.mp place').resolve_right self) some
        exact ⟨live.mpr (.inl lives),(kept lives).trans back⟩
  · intro p lives
    rcases live.mp lives with old | rfl
    · obtain ⟨side,owner,here⟩ := forest.up old
      rw [kept old]
      refine ⟨side,spot.mpr (.inl owner),?_⟩
      rw [child,if_neg,if_neg (above old),here]
      rintro ⟨rfl,same⟩
      rw [same,free] at here
      exact absurd old.1 (here ▸ lt_irrefl _)
    · rw [parent,if_pos rfl]
      exact ⟨right,spot.mpr (.inl place),by rw [child,if_pos ⟨rfl,rfl⟩]⟩
  · intro x lives equal
    rw [child,child] at equal
    rw [child]
    by_cases self : x = r
    · subst self
      simp [Ne.symm other]
    · have old := (live.mp lives).resolve_right self
      have unhung : ∀ side, t.child side x ≠ r := by
        intro side hangs
        obtain ⟨lives',_⟩ := @Forest.down _ _ _ _ forest side x (.inl old) (hangs ▸ Nat.ne_of_lt inside)
        exact dead (hangs ▸ lives')
      by_cases here : x = u
      · subst here
        cases right with
        | true =>
          simp only [self] at equal
          exact absurd equal (unhung false)
        | false =>
          simp only [self] at equal
          exact absurd equal.symm (unhung true)
      · simp only [here,and_false,self] at equal ⊢
        exact forest.apart old equal
  · intro p lives outside
    rcases live.mp lives with old | rfl
    · rw [kept old] at outside ⊢
      exact forest.rooted old outside
    · rw [parent,if_pos rfl] at outside ⊢
      exact root outside
  · intro p lives higher
    rcases live.mp lives with old | rfl
    · rw [kept old] at higher ⊢
      exact forest.same old ((live.mp higher).resolve_right (above old))
    · rw [parent,if_pos rfl] at higher ⊢
      exact node ((live.mp higher).resolve_right other)
  · obtain ⟨rank,below⟩ := forest.ranked
    refine ⟨update rank r (rank u+1),fun p lives higher => ?_⟩
    rcases live.mp lives with old | rfl
    · rw [kept old] at higher ⊢
      have self : p ≠ r := by
        rintro rfl
        exact dead old
      rw [update_of_ne (above old),update_of_ne self]
      exact below p old ((live.mp higher).resolve_right (above old))
    · rw [parent,if_pos rfl,update_of_ne other,update_self]
      exact Nat.lt_succ_self _
end Attach

section Unlink
variable {q c : Nat} {side : Bool}

theorem unlink_child (side : Bool) (x : Nat) :
    (t.unlink n q c).child side x = if t.child side x = q then c else t.child side x := by
  cases side <;> rfl

theorem unlink_live (forest : Forest n roots key t) (live : t.Live n q) (only : t.child side q = c) :
    (t.unlink n q c).Live n x ↔ t.Live n x ∧ x ≠ q := by
  unfold Links.Live
  show x < n ∧ (if x = q then n else if x = c then t.parent q else t.parent x) ≠ n ↔ _
  by_cases self : x = q
  · simp [self]
  · by_cases hung : x = c
    · subst hung
      simp only [self,if_false,if_true,live.2,ne_eq,not_false_iff,and_true]
      constructor
      · intro inside
        exact ⟨inside,(@Forest.down _ _ _ _ forest side q (.inl live) (only ▸ Nat.ne_of_lt inside)).1.2 |> (only ▸ ·)⟩
      · exact And.left
    · simp [self,hung]

theorem unlink (forest : Forest n roots key t) (live : t.Live n q) (only : t.child side q = c) (none : t.child (!side) q = n) :
    Forest n roots key (t.unlink n q c) := by
  have lives : ∀ {x}, (t.unlink n q c).Live n x ↔ t.Live n x ∧ x ≠ q := unlink_live forest live only
  have spot : ∀ {side x}, (t.unlink n q c).Place n roots side x ↔ t.Place n roots side x ∧ x ≠ q := by
    intro side x
    unfold Links.Place
    rw [lives]
    constructor
    · rintro (node | root)
      · exact ⟨.inl node.1,node.2⟩
      · refine ⟨.inr root,?_⟩
        rintro rfl
        exact absurd live.1 (Nat.not_lt.mpr root.2.1.le)
    · rintro ⟨node | root,other⟩
      · exact .inl ⟨node,other⟩
      · exact .inr root
  have child := @unlink_child n t q c
  have parent : ∀ x, (t.unlink n q c).parent x = if x = q then n else if x = c then t.parent q else t.parent x := fun _ => rfl
  have hung : c ≠ n → t.Live n c ∧ t.parent c = q := by
    intro some
    subst only
    exact forest.down (.inl live) some
  have apart : c ≠ n → c ≠ q := by
    rintro some rfl
    exact forest.parent_ne live (hung some).2
  have keys : c ≠ n → key q = key c := by
    intro some
    have same := forest.same (hung some).1 ((hung some).2.symm ▸ live)
    rwa [(hung some).2] at same
  -- Only c hangs at q.
  have below : ∀ {x}, t.Live n x → t.parent x = q → x = c := by
    intro x old here
    obtain ⟨hand,_,found⟩ := forest.up old
    rw [here] at found
    by_cases same : hand = side
    · rw [← found,same,only]
    · rw [show hand = !side by cases hand <;> cases side <;> simp_all,none] at found
      exact absurd old.1 (found ▸ lt_irrefl _)
  refine ⟨?_,?_,?_,?_,?_,?_⟩
  · intro hand u place some
    obtain ⟨old,other⟩ := spot.mp place
    rw [child] at some ⊢
    by_cases moved : t.child hand u = q
    · rw [if_pos moved] at some ⊢
      refine ⟨lives.mpr ⟨(hung some).1,apart some⟩,?_⟩
      rw [parent,if_neg (apart some),if_pos rfl]
      have back := (forest.down old (moved ▸ Nat.ne_of_lt live.1)).2
      rwa [moved] at back
    · rw [if_neg moved] at some ⊢
      obtain ⟨node,back⟩ := forest.down old some
      refine ⟨lives.mpr ⟨node,moved⟩,?_⟩
      rw [parent,if_neg moved,if_neg,back]
      intro same
      rw [same] at some back
      exact other (back.symm.trans (hung some).2)
  · intro p alive
    obtain ⟨old,other⟩ := lives.mp alive
    rw [parent,if_neg other]
    by_cases moved : p = c
    · rw [if_pos moved]
      obtain ⟨hand,place,here⟩ := forest.up live
      refine ⟨hand,spot.mpr ⟨place,forest.parent_ne live⟩,?_⟩
      rw [child,if_pos here,moved]
    · rw [if_neg moved]
      obtain ⟨hand,place,here⟩ := forest.up old
      refine ⟨hand,spot.mpr ⟨place,fun self => moved (below old self)⟩,?_⟩
      rw [child,here,if_neg other]
  · intro u alive equal
    obtain ⟨old,other⟩ := lives.mp alive
    -- A node that is not q does not have c as a child.
    have foreign : ∀ hand, t.child hand u = c → c = n := by
      intro hand here
      by_contra some
      have back := (@Forest.down _ _ _ _ forest hand u (.inl old) (here ▸ some)).2
      rw [here,(hung some).2] at back
      exact other back.symm
    rw [child,child] at equal
    rw [child]
    by_cases left : t.child false u = q
    · by_cases right : t.child true u = q
      · have nothing := forest.apart old (left.trans right.symm)
        exact absurd live.1 (left ▸ nothing ▸ lt_irrefl _)
      · rw [if_pos left] at equal ⊢
        rw [if_neg right] at equal
        exact foreign true equal.symm
    · rw [if_neg left] at equal ⊢
      by_cases right : t.child true u = q
      · rw [if_pos right] at equal
        rw [equal]
        exact foreign false equal
      · rw [if_neg right] at equal
        exact forest.apart old equal
  · intro p alive root
    obtain ⟨old,other⟩ := lives.mp alive
    rw [parent,if_neg other] at root ⊢
    by_cases moved : p = c
    · subst moved
      rw [if_pos rfl] at root ⊢
      rw [forest.rooted live root,keys old.1.ne]
    · rw [if_neg moved] at root ⊢
      exact forest.rooted old root
  · intro p alive higher
    obtain ⟨old,other⟩ := lives.mp alive
    rw [parent,if_neg other] at higher ⊢
    by_cases moved : p = c
    · subst moved
      rw [if_pos rfl] at higher ⊢
      exact (forest.same live (lives.mp higher).1).trans (keys old.1.ne)
    · rw [if_neg moved] at higher ⊢
      exact forest.same old (lives.mp higher).1
  · obtain ⟨rank,grows⟩ := forest.ranked
    refine ⟨rank,fun p alive higher => ?_⟩
    obtain ⟨old,other⟩ := lives.mp alive
    rw [parent,if_neg other] at higher ⊢
    by_cases moved : p = c
    · subst moved
      rw [if_pos rfl] at higher ⊢
      have known := hung old.1.ne
      have lower := grows p known.1 (known.2.symm ▸ live)
      rw [known.2] at lower
      exact Nat.lt_trans (grows q live (lives.mp higher).1) lower
    · rw [if_neg moved] at higher ⊢
      exact grows p old (lives.mp higher).1
end Unlink

section Rename
variable {σ : Equiv.Perm Nat}

theorem rename_child (side : Bool) (x : Nat) : (t.rename σ).child side x = σ (t.child side (σ.symm x)) := by
  cases side <;> rfl

theorem rename_live (fixed : ∀ x, n ≤ x → σ x = x) : (t.rename σ).Live n x ↔ t.Live n (σ.symm x) := by
  have back : ∀ x, n ≤ x → σ.symm x = x := fun x outside => (symm_apply_eq σ).mpr (fixed x outside).symm
  have inside : σ.symm x < n ↔ x < n := by
    constructor
    · intro small
      by_contra large
      exact large (back x (Nat.le_of_not_lt large) ▸ small)
    · intro small
      by_contra large
      have same := fixed _ (Nat.le_of_not_lt large)
      rw [apply_symm_apply] at same
      exact large (same ▸ small)
  have used : (t.rename σ).parent x ≠ n ↔ t.parent (σ.symm x) ≠ n := by
    show σ (t.parent (σ.symm x)) ≠ n ↔ _
    rw [Ne,← fixed n le_rfl,σ.injective.eq_iff]
    rw [fixed n le_rfl]
  unfold Links.Live
  rw [inside,used]

theorem rename_place (fixed : ∀ x, n ≤ x → σ x = x) :
    (t.rename σ).Place n roots side x ↔ t.Place n roots side (σ.symm x) := by
  unfold Links.Place
  rw [rename_live fixed]
  refine or_congr Iff.rfl (and_congr Iff.rfl ?_)
  constructor
  · intro root
    rw [(symm_apply_eq σ).mpr (fixed x root.1.le).symm]
    exact root
  · intro root
    have same := fixed _ root.1.le
    rw [apply_symm_apply] at same
    rw [same]
    exact root

theorem rename (forest : Forest n roots key t) (fixed : ∀ x, n ≤ x → σ x = x) (keys : ∀ x, key (σ x) = key x) :
    Forest n roots key (t.rename σ) := by
  have back : ∀ x, n ≤ x → σ.symm x = x := fun x outside => (symm_apply_eq σ).mpr (fixed x outside).symm
  have keysBack : ∀ x, key (σ.symm x) = key x := fun x => by rw [← keys,apply_symm_apply]
  have live : ∀ {x}, (t.rename σ).Live n x ↔ t.Live n (σ.symm x) := rename_live fixed
  have spot : ∀ {side x}, (t.rename σ).Place n roots side x ↔ t.Place n roots side (σ.symm x) := rename_place fixed
  have child := @rename_child t σ
  have parent : ∀ x, (t.rename σ).parent x = σ (t.parent (σ.symm x)) := fun _ => rfl
  have none : ∀ {x}, σ x = n ↔ x = n := by
    intro x
    constructor
    · intro here
      rw [← fixed n le_rfl] at here
      exact σ.injective here
    · rintro rfl
      exact fixed x le_rfl
  refine ⟨?_,?_,?_,?_,?_,?_⟩
  · intro side u place some
    rw [child] at some ⊢
    obtain ⟨lives,up⟩ := forest.down (spot.mp place) (fun here => some (none.mpr here))
    refine ⟨live.mpr (by rwa [symm_apply_apply]),?_⟩
    rw [parent,symm_apply_apply,up,apply_symm_apply]
  · intro p lives
    obtain ⟨side,place,here⟩ := forest.up (live.mp lives)
    rw [parent]
    refine ⟨side,spot.mpr (by rwa [symm_apply_apply]),?_⟩
    rw [child,symm_apply_apply,here,apply_symm_apply]
  · intro u lives equal
    exact none.mpr (forest.apart (live.mp lives) (σ.injective equal))
  · intro p lives root
    rw [parent] at root ⊢
    have same : σ (t.parent (σ.symm p)) = t.parent (σ.symm p) := by
      have outside := back _ root.le
      rw [symm_apply_apply] at outside
      exact outside.symm
    rw [same] at root ⊢
    rw [forest.rooted (live.mp lives) root,keysBack]
  · intro p lives higher
    rw [parent] at higher ⊢
    rw [live,symm_apply_apply] at higher
    rw [keys,forest.same (live.mp lives) higher,keysBack]
  · obtain ⟨rank,grows⟩ := forest.ranked
    refine ⟨fun x => rank (σ.symm x),fun p lives higher => ?_⟩
    rw [parent] at higher ⊢
    rw [live,symm_apply_apply] at higher
    show rank (σ.symm (σ (t.parent (σ.symm p)))) < rank (σ.symm p)
    rw [symm_apply_apply]
    exact grows _ (live.mp lives) higher
end Rename
end Forest
end PointerForest
