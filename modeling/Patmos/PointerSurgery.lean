import Patmos.PointerForest
namespace PointerForest
open Equiv Links Forest

variable {n roots : Nat} {key : Nat → Nat} {t t' t'' : Links}

-- The node r takes the place and the children of p.
def Links.succeed (n : Nat) (t : Links) (p r : Nat) : Links :=
  let t := t.setParent r (t.parent p)
  let t := t.setChild false r (t.child false p)
  let t := t.setChild true r (t.child true p)
  let t := t.setParent (t.child false p) r
  let t := t.setParent (t.child true p) r
  let t := t.setChild (t.child true (t.parent p) = p) (t.parent p) r
  t.setParent p n

-- The node q takes the place of p.
def Links.substitute (n : Nat) (t : Links) (p q : Nat) : Links :=
  let t := t.setParent q (t.parent p)
  let t := t.setChild (t.child true (t.parent p) = p) (t.parent p) q
  t.setParent p n

-- The node q, without a right child, leaves its place as a right child and takes over the left child of p.
def Links.detach (t : Links) (p q : Nat) : Links :=
  let t := t.setChild true (t.parent q) (t.child false q)
  let t := t.setParent (t.child false q) (t.parent q)
  let t := t.setChild false q (t.child false p)
  t.setParent (t.child false p) q

-- The node q takes over the right child of p, and its place.
def Links.promote (n : Nat) (t : Links) (p q : Nat) : Links :=
  let t := t.setChild true q (t.child true p)
  let t := t.setParent (t.child true p) q
  t.substitute n p q

theorem Agree.trans (first : Agree n roots t t') (second : Agree n roots t' t'') : Agree n roots t t'' where
  parent p inside := (second.parent p inside).trans (first.parent p inside)
  child place := (second.child (first.place.mpr place)).trans (first.child place)

structure Near (t : Links) (p r : Nat) : Prop where
  differ : p ≠ r
  above : t.parent p ≠ r
  self : t.parent p ≠ p
  below : ∀ side, t.child side p ≠ p
  apart : ∀ side, t.child side p ≠ r

section Surgery
variable {p q r c : Nat} {side : Bool}

section
variable (forest : Forest n roots key t) (live : t.Live n p)
include forest live

theorem Forest.child_ne (side : Bool) : t.child side p ≠ p := by
  intro same
  have back := (@down _ _ _ _ forest side p (.inl live) (by rw [same]; exact Nat.ne_of_lt live.1)).2
  rw [same] at back
  exact forest.parent_ne live back

theorem Forest.near (dead : ¬t.Live n r) (inside : r < n) : Near t p r where
  differ := by
    rintro rfl
    exact dead live
  above same := by
    rcases forest.above live with lives | root
    · exact dead (same ▸ lives)
    · exact absurd inside (Nat.not_lt.mpr (Nat.le_of_lt (same ▸ root.1)))
  self := forest.parent_ne live
  below := forest.child_ne live
  apart side same := by
    have lives := (@down _ _ _ _ forest side p (.inl live) (same ▸ Nat.ne_of_lt inside)).1
    exact dead (same ▸ lives)

theorem Forest.child_iff (inside : x < n) : t.parent x = p ↔ x = t.child true p ∨ x = t.child false p := by
  constructor
  · intro above
    have used : t.Live n x := ⟨inside,above ▸ live.1.ne⟩
    obtain ⟨side,_,here⟩ := forest.up used
    rw [above] at here
    cases side with
    | true => exact .inl here.symm
    | false => exact .inr here.symm
  · rintro (here | here)
    · rw [here] at inside ⊢
      exact (forest.down (.inl live) inside.ne).2
    · rw [here] at inside ⊢
      exact (forest.down (.inl live) inside.ne).2

theorem Forest.hand (place : t.Place n roots side u) :
    t.child side u = p ↔ side = decide (t.child true (t.parent p) = p) ∧ u = t.parent p := by
  obtain ⟨hand,owner,here⟩ := forest.up live
  have some : t.child hand (t.parent p) ≠ n := by
    rw [here]
    exact live.1.ne
  have right : hand = decide (t.child true (t.parent p) = p) := by
    cases hand with
    | true => rw [here]; simp
    | false =>
      have node : t.Live n (t.parent p) := owner.resolve_right fun root => Bool.false_ne_true root.1
      symm
      apply decide_eq_false
      intro also
      cases (forest.place_unique owner (.inl node) some (here.trans also.symm)).1
  constructor
  · intro hangs
    obtain ⟨rfl,rfl⟩ := forest.place_unique owner place some (here.trans hangs.symm)
    exact ⟨right,rfl⟩
  · rintro ⟨rfl,rfl⟩
    rw [← right]
    exact here
end

theorem succeed_parent (x : Nat) : (t.succeed n p r).parent x =
    if x = p then n else if x = t.child true p ∨ x = t.child false p then r else if x = r then t.parent p else t.parent x := by
  simp only [succeed,parent_setParent,parent_setChild,child_setChild,child_setParent]
  by_cases right : x = t.child true p <;> simp [right]

theorem succeed_child (near : Near t p r) (side : Bool) (x : Nat) : (t.succeed n p r).child side x =
    if side = decide (t.child true (t.parent p) = p) ∧ x = t.parent p then r
    else if x = r then t.child side p else t.child side x := by
  simp only [succeed,parent_setParent,parent_setChild,child_setChild,child_setParent,
    near.differ,and_false,if_false,near.above,Ne.symm (near.below true),Ne.symm (near.below false)]
  by_cases new : x = r
  · cases side <;> simp [new]
  · simp [new]

theorem swap_fixed (left : p < n) (right : r < n) (x : Nat) (outside : n ≤ x) : swap p r x = x :=
  swap_apply_of_ne_of_ne (Nat.ne_of_gt (left.trans_le outside))
    (Nat.ne_of_gt (right.trans_le outside))

theorem swap_key (keys : key r = key p) (x : Nat) : key (swap p r x) = key x := by
  rw [swap_apply_def]
  split
  case isTrue old => rw [old,keys]
  case isFalse =>
    split
    case isTrue new => rw [new,keys]
    case isFalse => rfl

theorem succeed_agree (forest : Forest n roots key t) (live : t.Live n p) (dead : ¬t.Live n r) (inside : r < n) :
    Agree n roots (t.rename (swap p r)) (t.succeed n p r) := by
  have near := forest.near live dead inside
  have unused : t.parent r = n := by
    by_contra used
    exact dead ⟨inside,used⟩
  have fixed : ∀ x, n ≤ x → swap p r x = x := swap_fixed live.1 inside
  have none : swap p r n = n := fixed n le_rfl
  constructor
  · intro x small
    show _ = swap p r (t.parent ((swap p r).symm x))
    rw [succeed_parent,symm_swap]
    by_cases old : x = p
    · rw [if_pos old,old,swap_apply_left,unused,none]
    · rw [if_neg old]
      by_cases new : x = r
      · rw [new,swap_apply_right,swap_apply_of_ne_of_ne near.self near.above,if_neg,if_pos rfl]
        exact not_or.mpr ⟨Ne.symm (near.apart true),Ne.symm (near.apart false)⟩
      · rw [swap_apply_of_ne_of_ne old new,if_neg new]
        by_cases hangs : t.parent x = p
        · rw [if_pos ((forest.child_iff live small).mp hangs),hangs,swap_apply_left]
        · rw [if_neg (fun here => hangs ((forest.child_iff live small).mpr here))]
          symm
          apply swap_apply_of_ne_of_ne hangs
          intro same
          by_cases used : t.parent x = n
          · exact absurd inside (same ▸ used ▸ lt_irrefl _)
          · exact (forest.near ⟨small,used⟩ dead inside).above same
  · intro side x place
    rw [rename_child,succeed_child near,symm_swap]
    have spot := (rename_place fixed).mp place
    rw [symm_swap] at spot
    by_cases new : x = r
    · rw [new,swap_apply_right,swap_apply_of_ne_of_ne (near.below side) (near.apart side),if_neg,if_pos rfl]
      exact fun here => near.above here.2.symm
    · by_cases old : x = p
      · rw [old,swap_apply_left] at spot
        rcases spot with lives | root
        · exact absurd lives dead
        · exact absurd inside (Nat.not_lt.mpr root.2.1.le)
      · rw [swap_apply_of_ne_of_ne old new] at spot ⊢
        rw [if_neg new]
        by_cases hangs : t.child side x = p
        · rw [if_pos ((forest.hand live spot).mp hangs),hangs,swap_apply_left]
        · rw [if_neg (fun here => hangs ((forest.hand live spot).mpr here))]
          symm
          apply swap_apply_of_ne_of_ne hangs
          intro same
          exact dead (same ▸ (forest.down spot (same ▸ Nat.ne_of_lt inside)).1)

theorem substitute_agree (forest : Forest n roots key t) (live : t.Live n p) (only : t.child side p = c) :
    Agree n roots (t.unlink n p c) (t.substitute n p c) := by
  have differ : p ≠ c := by
    rintro rfl
    exact forest.child_ne live side only
  have parent : ∀ x, (t.substitute n p c).parent x = if x = p then n else if x = c then t.parent p else t.parent x := by
    intro x
    simp only [substitute,parent_setParent,parent_setChild]
  have child : ∀ hand x, (t.substitute n p c).child hand x =
      if hand = decide (t.child true (t.parent p) = p) ∧ x = t.parent p then c else t.child hand x := by
    intro hand x
    simp only [substitute,child_setParent,child_setChild,parent_setParent,differ,if_false]
  refine ⟨fun x _ => parent x,fun {hand x} place => ?_⟩
  have owner : t.Place n roots hand x := by
    rcases place with node | root
    · exact .inl ((unlink_live forest live only).mp node).1
    · exact .inr root
  rw [child,unlink_child]
  by_cases hangs : t.child hand x = p
  · rw [if_pos ((forest.hand live owner).mp hangs),if_pos hangs]
  · rw [if_neg (fun here => hangs ((forest.hand live owner).mpr here)),if_neg hangs]

theorem promote_parent (differ : p ≠ q) (below : t.child true p ≠ p) (x : Nat) : (t.promote n p q).parent x =
    if x = p then n else if x = q then t.parent p else if x = t.child true p then q else t.parent x := by
  simp only [promote,substitute,parent_setParent,parent_setChild,child_setChild,
    differ,and_false,if_false,Ne.symm below]

theorem promote_child (differ : p ≠ q) (below : t.child true p ≠ p) (above : t.parent p ≠ q) (side : Bool) (x : Nat) :
    (t.promote n p q).child side x =
      if side = decide (t.child true (t.parent p) = p) ∧ x = t.parent p then q
      else if side = true ∧ x = q then t.child true p else t.child side x := by
  simp only [promote,substitute,parent_setParent,parent_setChild,child_setChild,
    child_setParent,differ,and_false,if_false,Ne.symm below,above]

theorem detach_parent (differ : p ≠ q) (x : Nat) : (t.detach p q).parent x =
    if x = t.child false p then q else if x = t.child false q then t.parent q else t.parent x := by
  simp only [detach,parent_setParent,parent_setChild,child_setChild,child_setParent,
    differ,and_false,if_false,Bool.false_eq_true,false_and]

theorem detach_child (side : Bool) (x : Nat) : (t.detach p q).child side x =
    if side = false ∧ x = q then t.child false p
    else if side = true ∧ x = t.parent q then t.child false q else t.child side x := by
  simp only [detach,child_setChild,child_setParent,Bool.false_eq_true,false_and,if_false]

abbrev Links.splice (t : Links) (n q : Nat) : Links := t.unlink n q (t.child false q)

structure Lower (n : Nat) (t : Links) (level : Nat → Nat) (p q : Nat) : Prop where
  grows : ∀ x, t.Live n x → t.Live n (t.parent x) → level (t.parent x) < level x
  upper : t.Live n p
  lower : t.Live n q
  below : level p < level q

theorem Lower.differ (branch : Lower n t level p q) : p ≠ q := by
  rintro rfl
  exact lt_irrefl _ branch.below

theorem Lower.above (branch : Lower n t level p q) : t.parent p ≠ q := by
  intro same
  have up := branch.grows p branch.upper (same ▸ branch.lower)
  rw [same] at up
  exact Nat.lt_asymm branch.below up

theorem Lower.outside (branch : Lower n t level p q) (forest : Forest n roots key t) (side : Bool) : p ≠ t.child side q := by
  intro same
  have used : t.child side q ≠ n := same ▸ branch.upper.1.ne
  have hangs := (@down _ _ _ _ forest side q (.inl branch.lower) used).2
  rw [← same] at hangs
  exact branch.above hangs

variable {level : Nat → Nat}

section Promote
variable {level : Nat → Nat} (forest : Forest n roots key t) (branch : Lower n t level p q)
include forest branch

theorem promote_live : (t.splice n q).Live n x ↔ t.Live n x ∧ x ≠ q :=
  unlink_live forest branch.lower rfl

theorem promote_up : (t.splice n q).parent p = t.parent p := by
  show (if p = q then n else if p = _ then _ else _) = _
  rw [if_neg branch.differ,if_neg (branch.outside forest false)]

theorem promote_hand (elsewhere : t.parent q ≠ t.parent p) :
    (t.splice n q).child true (t.parent p) = t.child true (t.parent p) := by
  rw [unlink_child,if_neg]
  intro same
  have place : t.Place n roots true (t.parent p) := by
    rcases forest.above branch.upper with node | root
    · exact .inl node
    · exact .inr ⟨rfl,root⟩
  have hangs := (forest.down place (same ▸ Nat.ne_of_lt branch.lower.1)).2
  rw [same] at hangs
  exact elsewhere hangs

section Detach
variable (node : t.Live n (t.parent q)) (under : level p < level (t.parent q))
include node under

omit forest branch node in
theorem detach_deeper : p ≠ t.parent q := by
  intro same
  exact lt_irrefl _ (same ▸ under)

theorem detach_elsewhere : t.parent q ≠ t.parent p := by
  intro same
  rcases forest.above branch.upper with above | root
  · have climbs := branch.grows p branch.upper above
    rw [← same] at climbs
    exact Nat.lt_asymm under climbs
  · rw [← same] at root
    exact absurd node.1 (Nat.not_lt.mpr root.1.le)

theorem detach_frame : (t.detach p q).parent p = t.parent p ∧ (t.detach p q).child true p = t.child true p ∧
    (t.detach p q).child true (t.parent p) = t.child true (t.parent p) := by
  have deeper := detach_deeper under
  have elsewhere := detach_elsewhere forest branch node under
  refine ⟨?_,?_,?_⟩
  · rw [detach_parent branch.differ,if_neg (Ne.symm (forest.child_ne branch.upper false)),if_neg (branch.outside forest false)]
  · rw [detach_child,if_neg (fun wrong => Bool.noConfusion wrong.1),if_neg (fun here => deeper here.2)]
  · rw [detach_child,if_neg (fun wrong => Bool.noConfusion wrong.1),if_neg (fun here => elsewhere here.2.symm)]
end Detach

theorem promote_dead : ¬(t.splice n q).Live n q := fun used =>
  ((promote_live forest branch).mp used).2 rfl

theorem promote_upper : (t.splice n q).Live n p :=
  (promote_live forest branch).mpr ⟨branch.upper,branch.differ⟩

variable (none : t.child true q = n)
include none

theorem promote_forest : Forest n roots key (t.splice n q) :=
  @unlink _ _ _ _ _ _ false forest branch.lower rfl none

theorem promote_agree :
    Agree n roots ((t.splice n q).rename (swap p q)) ((t.splice n q).succeed n p q) :=
  succeed_agree (promote_forest forest branch none) (promote_upper forest branch) (promote_dead forest branch) branch.lower.1

theorem promote_near : Near (t.splice n q) p q :=
  (promote_forest forest branch none).near (promote_upper forest branch) (promote_dead forest branch) branch.lower.1

theorem promote_place (place : ((t.splice n q).succeed n p q).Place n roots side x) :
    x ≠ p ∧ (x = q ∨ t.Place n roots side x) := by
  have spot := (promote_agree forest branch none).place.mp place
  rw [rename_place (swap_fixed branch.upper.1 branch.lower.1),symm_swap] at spot
  by_cases old : x = p
  · rw [old,swap_apply_left] at spot
    rcases spot with lives | root
    · exact absurd lives (promote_dead forest branch)
    · exact absurd branch.lower.1 (Nat.not_lt.mpr root.2.1.le)
  · refine ⟨old,?_⟩
    by_cases new : x = q
    · exact .inl new
    · rw [swap_apply_of_ne_of_ne old new] at spot
      rcases spot with lives | root
      · exact .inr (.inl ((promote_live forest branch).mp lives).1)
      · exact .inr (.inr root)

theorem promote_same (above : t'.parent p = t.parent p) (right : t'.child true p = t.child true p)
    (hand : t'.child true (t.parent p) = t.child true (t.parent p)) (elsewhere : t.parent q ≠ t.parent p)
    (beside : t.child true p ≠ q) (left : t'.child false q = (t.splice n q).child false p)
    (parent : ∀ x < n, x ≠ q → t'.parent x =
      if x = (t.splice n q).child false p then q else (t.splice n q).parent x)
    (child : ∀ {side x}, t.Place n roots side x → x ≠ p → x ≠ q →
      t'.child side x = (t.splice n q).child side x) :
    Agree n roots ((t.splice n q).succeed n p q) (t'.promote n p q) := by
  have near := promote_near forest branch none
  have up := promote_up forest branch
  have below : t'.child true p ≠ p := right ▸ forest.child_ne branch.upper true
  have kept : (t.splice n q).child true p = t.child true p := by
    rw [unlink_child,if_neg beside]
  constructor
  · intro x small
    rw [promote_parent branch.differ below,succeed_parent,up,kept,above,right]
    by_cases old : x = p
    · rw [if_pos old,if_pos old]
    · rw [if_neg old,if_neg old]
      by_cases new : x = q
      · rw [if_pos new,if_neg,if_pos new]
        rw [new]
        exact not_or.mpr ⟨Ne.symm beside,Ne.symm (near.apart false)⟩
      · rw [if_neg new,if_neg new,parent x small new]
        by_cases hung : x = t.child true p
        · rw [if_pos hung,if_pos (.inl hung)]
        · rw [if_neg hung]
          simp only [hung,false_or]
  · intro side x place
    obtain ⟨old,spot⟩ := promote_place forest branch none place
    rw [promote_child branch.differ below (above ▸ branch.above),succeed_child near,up,promote_hand forest branch elsewhere,
      above,hand,right]
    by_cases slot : side = decide (t.child true (t.parent p) = p) ∧ x = t.parent p
    · rw [if_pos slot,if_pos slot]
    · rw [if_neg slot,if_neg slot]
      by_cases new : x = q
      · rw [if_pos new]
        cases side with
        | true => rw [if_pos ⟨rfl,new⟩,kept]
        | false => rw [if_neg (fun wrong => Bool.false_ne_true wrong.1),new,left]
      · rw [if_neg new,if_neg (fun here => new here.2)]
        exact child (spot.resolve_left new) old new

theorem promote_direct (left : t.child false p = q) :
    Agree n roots ((t.splice n q).succeed n p q) (t.promote n p q) := by
  have hangs : t.parent q = p := by
    have back := @down _ _ _ _ forest false p (.inl branch.upper) (left ▸ Nat.ne_of_lt branch.lower.1)
    rw [left] at back
    exact back.2
  have right : t.child true p ≠ q := by
    intro same
    have nothing := forest.apart branch.upper (left.trans same.symm)
    exact absurd branch.lower.1 (left ▸ nothing ▸ lt_irrefl _)
  have leftChild : (t.splice n q).child false p = t.child false q := by
    rw [unlink_child,if_pos left]
  refine promote_same forest branch none rfl rfl rfl (by rw [hangs]; exact Ne.symm (forest.parent_ne branch.upper)) right
    leftChild.symm (fun x small new => ?_) fun {side x} place old new => ?_
  · rw [leftChild]
    by_cases moved : x = t.child false q
    · rw [if_pos moved]
      exact (forest.child_iff branch.lower small).mpr (.inr moved)
    · rw [if_neg moved]
      show _ = if x = q then n else if x = t.child false q then _ else _
      rw [if_neg new,if_neg moved]
  · rw [unlink_child,if_neg]
    intro same
    have back := (forest.down place (same ▸ Nat.ne_of_lt branch.lower.1)).2
    rw [same,hangs] at back
    exact old back.symm

theorem promote_deep (node : t.Live n (t.parent q)) (last : t.child true (t.parent q) = q) (under : level p < level (t.parent q)) :
    Agree n roots ((t.splice n q).succeed n p q) ((t.detach p q).promote n p q) := by
  have foreign : ∀ side, t.child side p ≠ q := by
    intro side same
    have back := (@down _ _ _ _ forest side p (.inl branch.upper) (same ▸ Nat.ne_of_lt branch.lower.1)).2
    rw [same] at back
    exact detach_deeper under back.symm
  have kept : (t.splice n q).child false p = t.child false p := by
    rw [unlink_child,if_neg (foreign false)]
  obtain ⟨above,right,hand⟩ := detach_frame forest branch node under
  refine promote_same forest branch none above right hand (detach_elsewhere forest branch node under) (foreign true) ?_
    (fun x small new => ?_) fun {side x} place old new => ?_
  · rw [kept,detach_child,if_pos ⟨rfl,rfl⟩]
  · rw [kept,detach_parent branch.differ]
    show _ = if x = t.child false p then q else if x = q then n else if x = t.child false q then _ else _
    rw [if_neg new]
  · rw [detach_child,if_neg (fun here => new here.2),unlink_child]
    have hangs := forest.hand branch.lower place
    rw [decide_eq_true last] at hangs
    by_cases there : side = true ∧ x = t.parent q
    · rw [if_pos there,if_pos (hangs.mpr there)]
    · rw [if_neg there,if_neg (fun same => there (hangs.mp same))]

theorem promoted (keys : key q = key p)
    (agree : Agree n roots ((t.splice n q).succeed n p q) t') :
    Forest n roots key t' ∧ ∀ x, t'.Live n x ↔ t.Live n x ∧ x ≠ p := by
  have whole := (promote_agree forest branch none).trans agree
  have fixed : ∀ x, n ≤ x → swap p q x = x := swap_fixed branch.upper.1 branch.lower.1
  refine ⟨((promote_forest forest branch none).rename fixed (swap_key keys)).congr whole,fun x => ?_⟩
  rw [whole.live,rename_live fixed,promote_live forest branch,symm_swap]
  by_cases old : x = p
  · simp [old]
  · by_cases new : x = q
    · rw [new,swap_apply_right]
      exact iff_of_true ⟨branch.upper,branch.differ⟩ ⟨branch.lower,Ne.symm branch.differ⟩
    · rw [swap_apply_of_ne_of_ne old new]
      exact and_congr_right fun _ => iff_of_true new old
end Promote

theorem succeeded (forest : Forest n roots key t) (live : t.Live n p) (dead : ¬t.Live n r) (inside : r < n)
    (keys : key r = key p) :
    Forest n roots key (t.succeed n p r) ∧ ∀ x, (t.succeed n p r).Live n x ↔ t.Live n x ∧ x ≠ p ∨ x = r := by
  have agree := succeed_agree forest live dead inside
  have fixed : ∀ x, n ≤ x → swap p r x = x := swap_fixed live.1 inside
  refine ⟨(forest.rename fixed (swap_key keys)).congr agree,fun x => ?_⟩
  rw [agree.live,rename_live fixed,symm_swap]
  by_cases old : x = p
  · rw [old,swap_apply_left]
    exact iff_of_false dead (by rintro (⟨_,differ⟩ | same)
                                · exact differ rfl
                                · exact dead (same ▸ live))
  · by_cases new : x = r
    · rw [new,swap_apply_right]
      exact iff_of_true live (.inr rfl)
    · rw [swap_apply_of_ne_of_ne old new]
      simp [old,new]

theorem substituted (forest : Forest n roots key t) (live : t.Live n p) (only : t.child side p = c)
    (none : t.child (!side) p = n) :
    Forest n roots key (t.substitute n p c) ∧ ∀ x, (t.substitute n p c).Live n x ↔ t.Live n x ∧ x ≠ p := by
  have agree := substitute_agree forest live only
  exact ⟨(forest.unlink live only none).congr agree,fun x => agree.live.trans (unlink_live forest live only)⟩
end Surgery
end PointerForest
