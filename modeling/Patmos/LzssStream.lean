import Patmos.LzssEncoder
namespace Patmos.Lzss
open PointerForest Function Nat Option

variable {T : Nat → Byte} {e e' : Encoder}

-- The string at A is the current one, the last unit of code begins at B.
structure Sliding (T : Nat → Byte) (hi A B : Nat) (e : Encoder) : Prop where
  window : Window T hi A (A+1) e.textBuf e.search.tree
  length : A+e.currLen = hi
  currPos : e.currPos = A % N
  killPos : e.killPos = (A+F) % N
  count : A = B+e.writeCount
  coded : Coded T e.codeBuf e.codeBufPtr e.codeMask e.out (B+e.lastMatchLength)

theorem Sliding.short (sliding : Sliding T hi A B e) : e.currLen ≤ F := by
  have ahead := sliding.window.ahead
  have length := sliding.length
  omega

theorem Sliding.encode (sliding : Sliding T hi A B e) (due : e.writeCount = e.lastMatchLength) (some : 0 < e.currLen)
    (found : Match T hi A e.search.matchPosition e.search.matchLength) (count : Nat) :
    ∃ e', Lzss.encode {e with writeCount := count} = .some e' ∧ e'.currLen = e.currLen ∧ e'.writeCount = count ∧
      0 < e'.lastMatchLength ∧ e'.lastMatchLength ≤ e.currLen ∧ Sliding T hi A A {e' with writeCount := 0} := by
  have short := sliding.short
  obtain ⟨window,rfl,currPos,killPos,same,coded⟩ := sliding
  rw [← due,← same] at coded
  obtain ⟨m,codeBuf,ptr,mask,out,done,positive,fits,coded'⟩ :=
    @encode_spec T {e with writeCount := count} A coded some currPos window.ring short found
  exact ⟨_,done,rfl,rfl,positive,fits,window,rfl,currPos,killPos,rfl,coded'⟩

theorem Window.mono {t : Links} (window : Window T hi A B textBuf t) (more : B ≤ B') : Window T hi A B' textBuf t where
  ring := window.ring
  trees := window.trees
  live p live := by
    obtain ⟨P,same,near,below⟩ := window.live p live
    exact ⟨P,same,near,below.trans_le more⟩
  ahead := window.ahead

theorem Sliding.skip (sliding : Sliding T hi A B e) (some : 0 < e.currLen) :
    ∃ e', Lzss.skip e = .some e' ∧ Sliding T hi (A+1) B e' ∧ e.currLen = e'.currLen+1 ∧ e'.writeCount = e.writeCount+1 ∧
      e'.lastMatchLength = e.lastMatchLength ∧
      (0 < e'.currLen → Match T hi (A+1) e'.search.matchPosition e'.search.matchLength) := by
  obtain ⟨window,length,currPos,killPos,count,coded⟩ := sliding
  obtain ⟨t,deleted,rest,_⟩ := window.delete
  have nextPos : (e.currPos+1) &&& (N-1) = (A+1) % N := by rw [currPos,next_masked]
  have nextKill : (e.killPos+1) &&& (N-1) = (A+1+F) % N := by rw [killPos,next_masked,add_right_comm]
  have left : A+1+(e.currLen-1) = hi := by omega
  simp only [Lzss.skip,killPos,deleted,bind_eq_bind,bind_some,if_neg some.ne',nextPos]
  by_cases more : 0 < e.currLen-1
  · obtain ⟨s,inserted,window',found⟩ := rest.insert e.search.matchPosition e.search.matchLength
    rw [if_pos more,inserted]
    refine ⟨_,rfl,⟨window',left,rfl,killPos ▸ nextKill,?_,coded⟩,?_,rfl,rfl,fun _ => found⟩
    · show A+1 = B+(e.writeCount+1)
      omega
    · show e.currLen = e.currLen-1+1
      omega
  · rw [if_neg more]
    refine ⟨_,rfl,⟨rest.mono (le_succ _),left,rfl,killPos ▸ nextKill,?_,coded⟩,?_,rfl,rfl,fun wrong => absurd wrong more⟩
    · show A+1 = B+(e.writeCount+1)
      omega
    · show e.currLen = e.currLen-1+1
      omega

-- What holds between two units: the search result counts once the last unit is done.
structure Pending (T : Nat → Byte) (hi A B : Nat) (e : Encoder) : Prop extends Sliding T hi A B e where
  early : e.writeCount ≤ e.lastMatchLength
  inside : B+e.lastMatchLength ≤ hi
  found : e.writeCount = e.lastMatchLength → 0 < e.currLen → Match T hi A e.search.matchPosition e.search.matchLength

theorem Pending.skipLoop (fuel : Nat) (pending : Pending T hi A B e) (enough : e.lastMatchLength < e.writeCount+fuel) :
    ∃ A' e', Lzss.skipLoop fuel e = some {e' with writeCount := e'.writeCount+1} ∧ Pending T hi A' B e' ∧
      e'.writeCount = e'.lastMatchLength ∧ e'.lastMatchLength = e.lastMatchLength ∧
      e'.currLen+(e.lastMatchLength-e.writeCount) = e.currLen := by
  induction fuel generalizing A e with
  | zero => exact absurd pending.early enough.not_ge
  | succ fuel ih =>
    rw [Lzss.skipLoop]
    by_cases more : e.writeCount < e.lastMatchLength
    · have some : 0 < e.currLen := by
        have length := pending.length
        have count := pending.count
        have inside := pending.inside
        omega
      obtain ⟨e1,skipped,sliding,shorter,counted,same,found⟩ := pending.skip some
      have pending1 : Pending T hi (A+1) B e1 :=
        ⟨sliding,by omega,by rw [same]; exact pending.inside,fun _ => found⟩
      obtain ⟨A',e',done,pending',due,kept,left⟩ := ih pending1 (by omega)
      rw [if_pos more]
      simp only [skipped]
      exact ⟨A',e',done,pending',due,kept.trans same,by omega⟩
    · have due : e.writeCount = e.lastMatchLength := pending.early.antisymm (Nat.le_of_not_lt more)
      rw [if_neg more]
      exact ⟨A,e,rfl,pending,due,rfl,by omega⟩

theorem Pending.finishLoop (fuel : Nat) (pending : Pending T hi A B e) (enough : e.currLen < fuel)
    (first : e.writeCount = e.lastMatchLength → e.currLen+1 < fuel) :
    ∃ e', Lzss.finishLoop fuel e = some e' ∧ Coded T e'.codeBuf e'.codeBufPtr e'.codeMask e'.out hi := by
  induction fuel generalizing A B e with
  | zero => exact absurd enough (not_lt_zero _)
  | succ fuel ih =>
    rw [Lzss.finishLoop]
    by_cases more : 0 < e.currLen
    · obtain ⟨A',e1,skipped,pending1,due,same,left⟩ := pending.skipLoop (e.lastMatchLength+1) (by omega)
      rw [if_pos more]
      simp only [skipped,bind_eq_bind]
      by_cases some : 0 < e1.currLen
      · obtain ⟨e2,encoded,length,_,positive,fits,sliding⟩ := pending1.encode due some (pending1.found due some) (e1.writeCount+1)
        have inside : A'+e2.lastMatchLength ≤ hi := by
          have whole := pending1.length
          omega
        have pending2 : Pending T hi A' A' {e2 with writeCount := 0} :=
          ⟨sliding,zero_le _,inside,fun wrong => absurd wrong positive.ne⟩
        simp only [encoded,bind_some]
        apply ih pending2
        · show e2.currLen < fuel
          by_cases idle : e.writeCount = e.lastMatchLength
          · omega
          · have := pending.early
            omega
        · exact fun wrong => absurd wrong positive.ne
      · have none : e1.currLen = 0 := Nat.eq_zero_of_not_pos some
        have ends : B+e1.lastMatchLength = hi := by
          have length := pending1.length
          have count := pending1.count
          omega
        obtain ⟨fuel,rfl⟩ : ∃ more, fuel = more+1 := ⟨fuel-1,by omega⟩
        simp only [none]
        exact ⟨_,rfl,ends ▸ pending1.coded⟩
    · rw [if_neg more]
      refine ⟨e,rfl,?_⟩
      have ends : B+e.lastMatchLength = hi := by
        have length := pending.length
        have count := pending.count
        have early := pending.early
        have inside := pending.inside
        omega
      exact ends ▸ pending.coded

theorem flushBuffer_spec (coded : Coded T e.codeBuf e.codeBufPtr e.codeMask e.out hi) :
    ∃ groups, (flushBuffer e).out = groups.flatMap pack ∧ Groups groups ∧ Covers T (N-F) groups.flatten hi := by
  obtain ⟨done,group,sent,full,short,filled,_,covers⟩ := coded
  have length : e.codeBufPtr = (pack group).length := by
    rw [← filled,List.length_map,List.length_range]
  rw [flushBuffer]
  rcases List.eq_nil_or_concat group with rfl | ⟨rest,last,rfl⟩
  · have idle : ¬1 < e.codeBufPtr := by
      rw [length]
      exact lt_irrefl 1
    rw [if_neg idle]
    rw [List.append_nil] at covers
    refine ⟨done,sent,?_,covers⟩
    have groups : Groups (done++[]) := Groups.append full trivial
    rwa [List.append_nil] at groups
  · rw [List.concat_eq_append] at *
    rw [if_pos filled.one_lt]
    refine ⟨done++[rest++[last]],?_,Groups.append full ⟨by simp,short.le,absurd rfl,trivial⟩,?_⟩
    · rw [List.flatMap_append,List.flatMap_singleton,← sent]
      exact congrArg (e.out++·) filled
    · rw [List.flatten_append,List.flatten_singleton]
      exact covers

structure Filling (T : Nat → Byte) (n : Nat) (e : Encoder) : Prop extends Sliding T (N-F+n) (N-F) (N-F) e where
  few : n < F
  unused : ∀ p, ¬e.search.tree.Live N p
  idle : e.lastMatchLength = 0
  none : e.search.matchLength = 0

structure Full (T : Nat → Byte) (hi A B : Nat) (e : Encoder) : Prop extends Sliding T hi A B e where
  full : e.currLen = F
  early : e.writeCount < e.lastMatchLength
  most : e.lastMatchLength ≤ F

theorem Full.pending (full : Full T hi A B e) : Pending T hi A B e where
  toSliding := full.toSliding
  early := full.early.le
  inside := by
    have length := full.length
    have count := full.count
    have most := full.most
    have whole := full.full
    omega
  found due := absurd due full.early.ne

theorem Filling.count_zero (filling : Filling T n e) : e.writeCount = 0 := by
  have count := filling.count
  omega

theorem Filling.pending (filling : Filling T n e) : Pending T (N-F+n) (N-F) (N-F) e where
  toSliding := filling.toSliding
  early := by rw [filling.count_zero]; exact zero_le _
  inside := by rw [filling.idle]; exact le_add_right _ _
  found _ _ := by
    rw [filling.none]
    exact ⟨zero_le F,fun wrong => absurd wrong (lt_irrefl 0)⟩

theorem initTree_unused (p : Nat) : ¬initTree.Live N p := by
  rintro ⟨inside,used⟩
  exact used (if_pos inside)

theorem initTree_trees (textBuf : Nat → Byte) : Trees textBuf initTree where
  down {right u} place some := by
    rcases place with live | ⟨rfl,low,high⟩
    · exact absurd live (initTree_unused u)
    · have none : initTree.rchild u = NIL := if_pos ⟨low,high⟩
      exact absurd none some
  up live := absurd live (initTree_unused _)
  apart live := absurd live (initTree_unused _)
  rooted live := absurd live (initTree_unused _)
  same live := absurd live (initTree_unused _)
  ranked := ⟨fun _ => 0,fun p live => absurd live (initTree_unused p)⟩

theorem compressionOutputStream_filling (blank : ∀ a < N-F, T a = 0x20) : Filling T 0 compressionOutputStream where
  window := {
    ring := {
      cells := fun a _ below => by
        rw [add_zero] at below
        have inside : a % N = a := mod_eq_of_lt (by omega)
        show (if a % N < N-F then (0x20 : Byte) else 0) = T a
        rw [inside,if_pos below,blank a below]
      mirror := fun a lapped below => absurd below (by omega) }
    trees := initTree_trees _
    live := fun p live => absurd live (initTree_unused p)
    ahead := le_add_right _ _ }
  length := rfl
  currPos := by
    have size := N_eq
    have short := F_eq
    show N-F = (N-F) % N
    exact (mod_eq_of_lt (by omega)).symm
  killPos := by
    have size := N_eq
    have short := F_eq
    show 0 = (N-F+F) % N
    rw [Nat.sub_add_cancel (by omega),Nat.mod_self]
  count := rfl
  coded := ⟨[],[],rfl,fun _ member => absurd member List.not_mem_nil,by decide,rfl,rfl,rfl⟩
  few := by rw [F_eq]; decide
  unused := initTree_unused
  idle := rfl
  none := rfl

theorem putText_eq (inside : i < N+F-1) (b : Byte) : putText textBuf i b = some (update textBuf i b) := if_pos inside

-- The strings before the first one begin with spaces. By induction on the passes left.
theorem insertBefore_spec {t : Links} (left i : Nat) (trees : Trees textBuf t) (inside : currPos < N) (room : i+left ≤ currPos+1)
    (some : 0 < i) (used : ∀ p, t.Live N p → ∃ j, 0 < j ∧ j < i ∧ p+j = currPos) :
    ∃ s, insertBefore textBuf currPos left i ⟨t,position,length⟩ = .some s ∧ Trees textBuf s.tree ∧
      ∀ p, s.tree.Live N p → ∃ j, 0 < j ∧ j < i+left ∧ p+j = currPos := by
  induction left generalizing i t position length with
  | zero => exact ⟨_,rfl,trees,used⟩
  | succ left ih =>
    have dead : ¬t.Live N (currPos-i) := by
      intro live
      obtain ⟨j,_,below,same⟩ := used _ live
      omega
    obtain ⟨s,inserted,facts⟩ := insertNode_spec trees dead (by omega) position length
    have used' : ∀ p, s.tree.Live N p → ∃ j, 0 < j ∧ j < i+1 ∧ p+j = currPos := by
      intro p live
      rcases facts.live p live with old | rfl
      · obtain ⟨j,positive,below,same⟩ := used p old
        exact ⟨j,positive,by omega,same⟩
      · exact ⟨i,some,lt_succ_self i,by omega⟩
    obtain ⟨s',done,trees',used''⟩ := ih (i+1) facts.trees (by omega) (succ_pos i) used'
    rw [insertBefore,if_pos (by omega),inserted]
    refine ⟨s',done,trees',fun p live => ?_⟩
    obtain ⟨j,positive,below,same⟩ := used'' p live
    exact ⟨j,positive,by omega,same⟩

def Written (T : Nat → Byte) (n : Nat) (e : Encoder) : Prop := Filling T n e ∨ ∃ A B, Full T (N-F+n) A B e

theorem Filling.write (filling : Filling T n e) (b : Byte) (told : T (N-F+n) = b) :
    ∃ e', Lzss.write e b = some e' ∧ Written T (n+1) e' := by
  have size := N_eq
  have short := F_eq
  have few := filling.few
  have length : e.currLen = n := add_left_cancel filling.length
  have place : e.currPos = N-F := filling.currPos.trans (mod_eq_of_lt (by omega))
  have here : (N-F+n) % N = N-F+n := mod_eq_of_lt (by omega)
  have window : Window T (N-F+(n+1)) (N-F) (N-F+1) (update e.textBuf (N-F+n) b) e.search.tree := by
    apply filling.window.write (by omega)
    · rw [here,update_self,told]
    · intro lapped
      omega
    · intro i own _
      exact update_of_ne (here ▸ own) _ _
    · exact filling.unused _
  rw [Lzss.write,if_pos (by omega),place,length,putText_eq (by omega)]
  simp only [bind_eq_bind,bind_some]
  by_cases last : n+1 = F
  · obtain ⟨s,inserted,trees,used⟩ :=
      @insertBefore_spec _ (N-F) e.search.matchPosition e.search.matchLength _ F 1 window.trees (by omega) (by omega) one_pos
        (fun p live => absurd live (filling.unused p))
    have before : Window T (N-F+(n+1)) (N-F) (N-F) (update e.textBuf (N-F+n) b) s.tree := by
      refine ⟨window.ring,trees,fun p live => ?_,window.ahead⟩
      obtain ⟨j,positive,below,same⟩ := used p live
      exact ⟨p,(mod_eq_of_lt live.1).symm,by omega,by omega⟩
    obtain ⟨s',inserted',window',found⟩ := before.insert s.matchPosition s.matchLength
    rw [mod_eq_of_lt (by omega)] at inserted'
    rw [if_pos last]
    simp only [inserted,inserted',bind_some]
    have sliding : Sliding T (N-F+(n+1)) (N-F) (N-F)
        {e with textBuf := update e.textBuf (N-F+n) b,search := s',currLen := n+1,currPos := N-F} :=
      ⟨window',rfl,place.symm.trans filling.currPos,filling.killPos,filling.count,filling.coded⟩
    have due : e.writeCount = e.lastMatchLength := filling.count_zero.trans filling.idle.symm
    obtain ⟨e',encoded,whole,count,positive,fits,sliding'⟩ := sliding.encode due (succ_pos n) found e.writeCount
    have zero : e'.writeCount = 0 := count.trans filling.count_zero
    have same : {e' with writeCount := 0} = e' := by rw [← zero]
    rw [same] at sliding'
    exact ⟨e',encoded,.inr ⟨_,_,sliding',whole.trans last,by omega,last ▸ fits⟩⟩
  · rw [if_neg last]
    refine ⟨_,rfl,.inl ⟨⟨window,rfl,?_,filling.killPos,filling.count,filling.coded⟩,by omega,filling.unused,filling.idle,filling.none⟩⟩
    exact place.symm.trans filling.currPos

theorem putRing_spec (textBuf : Nat → Byte) (cell : p < N) (b : Byte) :
    ∃ textBuf', putRing textBuf p b = some textBuf' ∧ textBuf' p = b ∧ (p < F-1 → textBuf' (N+p) = b) ∧
      ∀ i, i ≠ p → i ≠ N+p → textBuf' i = textBuf i := by
  have short := F_eq
  rw [putRing,putText_eq (by omega)]
  simp only [bind_eq_bind,bind_some]
  split
  case isTrue small =>
    rw [putText_eq (by omega)]
    refine ⟨_,rfl,?_,fun _ => ?_,fun i first second => ?_⟩
    · rw [update_of_ne (by omega),update_self]
    · rw [add_comm N,update_self]
    · rw [update_of_ne (by omega),update_of_ne first]
  case isFalse large =>
    exact ⟨_,rfl,update_self ..,fun small => absurd small large,fun i first _ => update_of_ne first _ _⟩

theorem Full.write (full : Full T hi A B e) (b : Byte) (told : T hi = b) :
    ∃ A' B' e', Lzss.write e b = some e' ∧ Full T (hi+1) A' B' e' := by
  obtain ⟨sliding,whole,early,most⟩ := full
  obtain ⟨window,length,currPos,killPos,count,coded⟩ := sliding
  have ends : A+F = hi := whole ▸ length
  have cell := mod_lt hi N_pos
  rw [ends] at killPos
  obtain ⟨t,deleted,rest,dead⟩ := window.delete
  rw [ends] at deleted dead
  obtain ⟨textBuf,stored,own,copy,others⟩ := putRing_spec e.textBuf cell b
  have window' := rest.write (by omega) (own.trans told.symm) (fun _ small => (copy small).trans told.symm) others dead
  obtain ⟨s,inserted,window'',found⟩ := window'.insert e.search.matchPosition e.search.matchLength
  have nextPos : (e.currPos+1) &&& (N-1) = (A+1) % N := by rw [currPos,next_masked]
  have nextKill : (hi % N+1) &&& (N-1) = (A+1+F) % N := by rw [next_masked,← ends,add_right_comm]
  rw [Lzss.write,if_neg (by omega)]
  simp only [killPos,deleted,stored,bind_eq_bind,bind_some,nextPos,inserted]
  have sliding : Sliding T (hi+1) (A+1) B
      {e with
        textBuf := textBuf,search := s,killPos := (hi % N+1) &&& (N-1),currPos := (A+1) % N,writeCount := e.writeCount+1} :=
    ⟨window'',by show A+1+e.currLen = hi+1; omega,rfl,nextKill,by show A+1 = B+(e.writeCount+1); omega,coded⟩
  by_cases due : e.writeCount+1 = e.lastMatchLength
  · obtain ⟨e',encoded,kept,_,positive,fits,sliding'⟩ :=
      sliding.encode due (by show 0 < e.currLen; omega) found (e.writeCount+1)
    rw [if_pos due]
    simp only [encoded]
    exact ⟨_,_,_,rfl,sliding',kept.trans whole,positive,whole ▸ fits⟩
  · rw [if_neg due]
    exact ⟨_,_,_,rfl,sliding,whole,by show e.writeCount+1 < e.lastMatchLength; omega,most⟩

theorem Written.step (written : Written T n e) (b : Byte) (told : T (N-F+n) = b) :
    ∃ e', write e b = some e' ∧ Written T (n+1) e' := by
  rcases written with filling | ⟨A,B,full⟩
  · exact filling.write b told
  · obtain ⟨A',B',e',done,full'⟩ := full.write b told
    exact ⟨e',done,.inr ⟨A',B',full'⟩⟩

theorem Written.run (bytes : List Byte) (written : Written T n e)
    (told : ∀ i (inside : i < bytes.length), T (N-F+n+i) = bytes[i]) :
    ∃ e', bytes.foldlM write e = some e' ∧ Written T (n+bytes.length) e' := by
  induction bytes generalizing n e with
  | nil => exact ⟨e,rfl,written⟩
  | cons b rest ih =>
    obtain ⟨e1,done,written1⟩ := written.step b (told 0 (succ_pos _))
    obtain ⟨e',run,written'⟩ := ih written1 (fun i inside => by
      have later := told (i+1) (succ_lt_succ inside)
      rwa [show N-F+n+(i+1) = N-F+(n+1)+i by omega] at later)
    refine ⟨e',?_,?_⟩
    · rw [List.foldlM_cons,done]
      exact run
    · rwa [List.length_cons,add_comm rest.length,← add_assoc]

theorem Written.pending (written : Written T n e) : ∃ A B, Pending T (N-F+n) A B e := by
  rcases written with filling | ⟨A,B,full⟩
  · exact ⟨_,_,filling.pending⟩
  · exact ⟨A,B,full.pending⟩

def text (x : List Byte) (a : Nat) : Byte := if a < N-F then 0x20 else x.getD (a-(N-F)) 0

theorem text_getElem (x : List Byte) (inside : i < x.length) : text x (N-F+i) = x[i] := by
  rw [text]
  simp [inside]

theorem compress_spec (x : List Byte) :
    ∃ groups, compress x = some (groups.flatMap pack) ∧ Groups groups ∧
      Covers (text x) (N-F) groups.flatten (N-F+x.length) := by
  have start := compressionOutputStream_filling (T := text x) (fun a below => if_pos below)
  obtain ⟨e,run,written⟩ := Written.run x (.inl start) (fun i inside => text_getElem x inside)
  rw [zero_add] at written
  obtain ⟨A,B,pending⟩ := written.pending
  obtain ⟨e',ended,coded⟩ := pending.finishLoop (e.currLen+2) (by omega) (fun _ => by omega)
  obtain ⟨groups,sent,shape,covers⟩ := flushBuffer_spec coded
  refine ⟨groups,?_,shape,covers⟩
  simp only [compress,run,finish,ended,bind_eq_bind,bind_some]
  exact congrArg some sent

-- A byte of flags for eight units, each of which is not longer than what it stands for.
theorem compress_bounded (x : List Byte) : ∃ code, compress x = some code ∧ 8*code.length ≤ 9*x.length+7 := by
  obtain ⟨groups,compressed,shape,covers⟩ := compress_spec x
  obtain ⟨units,bytes⟩ := covers.bytes_le
  have packed := shape.pack_length
  exact ⟨_,compressed,by omega⟩
end Patmos.Lzss
