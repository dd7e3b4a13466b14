import Patmos.MiiLine
namespace Patmos.Mii
open Transition List

attribute [local simp] State.next Line.next MIITimestampUnit.next

section Stages
-- Some byte before the n-th was the first of a PTP header.
def HeadSeen (body : List (BitVec 8)) (n : Nat) : Prop := ∃ k < n, (parse (body.take k)).stateReg = .stPTPhead

-- No delimiter yet.
structure Collecting (s : State) : Prop where
  state : s.unit.parser.stateReg = .stCollectSFD
  shifting : Shifting s.unit s.line
  early : s.line.bytes <+: sfd
  due : s.line.bytes = sfd → s.line.recent ≤ 3
  cleared : s.unit.parser.bufClrReg = true →
    s.line.framed = false ∧ s.line.busy = false ∧ (s.line.idled = true → s.unit.miiClkReg2 = true)
  stored : ∀ body stamp, s.line.last = some (body,stamp) → CarriesPtp body → s.unit.rtcTimestampReg = stamp

section
variable (s : State) (body : List (BitVec 8))

structure Inside : Prop where
  bytes : s.line.bytes = sfd ++ body
  busy : s.line.busy = true
  active : s.line.idled = false
  stamp : s.unit.tempTimestampReg = s.line.stamp

-- The parser is up to four cycles behind the line.
def Tracked (p : Parser) (body : List (BitVec 8)) (recent : Nat) : Prop :=
  match recent with
  | 0 => False
  | 1 | 2 => body ≠ [] ∧ p = parse body.dropLast ∧ Settled (parse body.dropLast) (bufferOf (sfd ++ body.dropLast))
  | 3 => body ≠ [] ∧ p = bump (parse body.dropLast) ∧ Settled (parse body.dropLast) (bufferOf (sfd ++ body.dropLast))
  | 4 => p.next (bufferOf (sfd ++ body)) false true = parse body ∧
    (Settled p (bufferOf (sfd ++ body)) ∨ TypeSeen p (bufferOf (sfd ++ body))) ∧ ¬Ended (parse body.dropLast)
  | _ => p = parse body ∧ Settled (parse body) (bufferOf (sfd ++ body))

structure Following : Prop where
  inside : Inside s body
  shifting : Shifting s.unit s.line
  tracked : Tracked s.unit.parser body s.line.recent
  marked : HeadSeen body (if s.line.recent = 1 then body.length-1 else body.length) → s.unit.rtcTimestampReg = s.line.stamp

-- The parser has been at the end of the frame for `since` cycles.
structure Ending (since : Nat) : Prop where
  inside : Inside s body
  state : s.unit.parser.stateReg = if since = 0 then .stPCFHead else .stEOF
  ended : Ended (parse body)
  marked : HeadSeen body body.length → s.unit.rtcTimestampReg = s.line.stamp
  soon : since < 4 → ¬Ended (parse body.dropLast.dropLast) ∧ (Ended (parse body.dropLast) → s.line.recent ≤ since+1)
  clears : 2 ≤ since → s.unit.parser.bufClrReg = true ∧ s.unit.regBuffer = 0
  counts : 3 ≤ since → s.unit.deserializePHYbyte.countReg = 0 ∧ s.unit.deserializePHYBuffer.shiftReg = 0
  done : 4 ≤ since → s.unit.deserializePHYbyte.doneReg = false

structure Lost : Prop where
  bytes : s.line.bytes = sfd ++ body
  busy : s.line.busy = true
  stuck : ∃ k ≤ body.length, Stuck (parse (body.take k))
end

inductive Stage (s : State) : Prop where
  | collecting (collecting : Collecting s)
  | following (body : List (BitVec 8)) (following : Following s body)
  | ending (body : List (BitVec 8)) (since : Nat) (ending : Ending s body since)
  | lost (body : List (BitVec 8)) (lost : Lost s body)

variable {s : State} {i : Cycle} {body : List (BitVec 8)}

theorem parser_next (s : State) (i : Cycle) :
    (s.next i).unit.parser = s.unit.parser.next s.unit.regBuffer s.unit.wrByteReg s.unit.validPHYData := rfl

theorem stamp_step (stamp : s.unit.tempTimestampReg = s.line.stamp) (unstarted : s.line.recent = 3 → s.line.bytes.length ≠ 8) :
    (s.next i).line.stamp = s.line.stamp ∧
    (s.unit.stamps = true ∨ s.unit.rtcTimestampReg = s.line.stamp → (s.next i).unit.rtcTimestampReg = s.line.stamp) := by
  constructor
  · simp only [State.next,Line.next]
    rw [if_neg fun both => unstarted both.1 both.2]
  · intro known
    simp only [State.next,MIITimestampUnit.next]
    split
    case isTrue => exact stamp
    case isFalse other => exact known.resolve_left other

theorem inside_step (inside : Inside s body) (valid : s.unit.validPHYData = true)
    (beyond : s.unit.parser.stateReg ≠ .stCollectSFD) (begun : s.line.recent = 3 → body ≠ []) :
    Inside (s.next i) (body ++ s.byte.toList) ∧ (s.next i).line.stamp = s.line.stamp ∧
    (s.unit.stamps = true ∨ s.unit.rtcTimestampReg = s.line.stamp → (s.next i).unit.rtcTimestampReg = s.line.stamp) := by
  have unstarted : s.line.recent = 3 → s.line.bytes.length ≠ 8 := by
    intro now length
    rw [inside.bytes,length_append] at length
    exact begun now (eq_nil_of_length_eq_zero (Nat.add_left_cancel (n := 8) length))
  obtain ⟨stamp,kept⟩ := stamp_step (i := i) inside.stamp unstarted
  refine ⟨⟨?_,?_,?_,?_⟩,stamp,kept⟩
  · simp only [State.next,Line.next,valid]
    rw [inside.bytes]
    rfl
  · simpa only [State.next,Line.next] using valid
  · simp [valid]
  · rw [stamp,← inside.stamp]
    simp [MIITimestampUnit.starts,beyond]

theorem headSeen_ended {more : List (BitVec 8)} (ended : Ended (parse body)) (seen : HeadSeen (body ++ more) n) :
    HeadSeen body body.length := by
  obtain ⟨k,-,state⟩ := seen
  by_cases known : k < body.length
  · rw [take_append_of_le_length (by omega)] at state
    exact ⟨k,known,state⟩
  · rw [take_append,take_of_length_le (by omega)] at state
    rcases parse_ended ended (more.take (k-body.length)) with other | other <;> rw [state] at other <;> cases other

theorem not_ended (settled : Settled p regBuffer) : ¬Ended p := by
  intro ended
  have waits := settled.waits
  rcases ended with state | state <;> simp [state] at waits

theorem ended_of_dropLast (ended : Ended (parse body.dropLast)) : Ended (parse body) := by
  by_cases empty : body = []
  · subst empty
    exact ended
  · rw [← dropLast_concat_getLast empty]
    exact parse_ended ended _

theorem settled_stateReg (settled : Settled p regBuffer) : p.stateReg ≠ .stCollectSFD ∧ p.stateReg ≠ .stEOF := by
  have waits := settled.waits
  constructor <;> intro state <;> simp [state] at waits

theorem follow_settled (timed : Timed s.unit s.line) (following : Following s body) (valid : s.unit.validPHYData = true)
    (late : 4 ≤ s.line.recent) (unclear : s.unit.parser.bufClrReg = false)
    (beyond : s.unit.parser.stateReg ≠ .stCollectSFD ∧ s.unit.parser.stateReg ≠ .stEOF)
    (caught : (s.next i).unit.parser = parse body) (settled : Settled (parse body) (bufferOf (sfd ++ body))) :
    Following (s.next i) (body ++ s.byte.toList) := by
  have first : s.line.recent ≠ 1 := by omega
  obtain ⟨inside,stamp,kept⟩ := inside_step (i := i) following.inside valid beyond.1 (fun now => absurd now (by omega))
  have marked := following.marked
  rw [if_neg first] at marked
  refine ⟨inside,shifting_step timed following.shifting valid unclear beyond.2,?_,?_⟩
  · cases complete : s.byte with
    | none =>
      obtain ⟨m,more⟩ : ∃ m, s.line.recent+1 = m+5 := ⟨s.line.recent-4,by omega⟩
      rw [(line_waits (i := i) valid complete).2,more,Option.toList_none,append_nil]
      exact ⟨caught,settled⟩
    | some byte =>
      rw [(line_completes (i := i) valid complete).2,Option.toList_some]
      refine ⟨by simp,?_,?_⟩
      · rw [dropLast_concat,caught]
      · rw [dropLast_concat]
        exact settled
  · rw [stamp]
    intro seen
    apply kept
    refine .inr (marked ?_)
    cases complete : s.byte with
    | none =>
      rw [(line_waits (i := i) valid complete).2,if_neg (by omega),complete,Option.toList_none,append_nil] at seen
      exact seen
    | some byte =>
      rw [(line_completes (i := i) valid complete).2,complete,length_append] at seen
      obtain ⟨k,before,state⟩ : HeadSeen (body ++ [byte]) body.length := seen
      rw [take_append_of_le_length before.le] at state
      exact ⟨k,before,state⟩

theorem follow_ended (following : Following s body) (valid : s.unit.validPHYData = true) (third : 3 ≤ s.line.recent)
    (nonempty : s.line.recent = 3 → body ≠ [])
    (beyond : s.unit.parser.stateReg ≠ .stCollectSFD) (ended : Ended (parse body))
    (unended : ¬Ended (parse body.dropLast)) (since : Nat) (few : since < 2)
    (state : (s.next i).unit.parser.stateReg = if since = 0 then .stPCFHead else .stEOF) :
    Ending (s.next i) (body ++ s.byte.toList) since := by
  have first : s.line.recent ≠ 1 := by omega
  obtain ⟨inside,stamp,kept⟩ := inside_step (i := i) following.inside valid beyond nonempty
  have marked := following.marked
  rw [if_neg first] at marked
  refine ⟨inside,state,parse_ended ended _,?_,?_,?_,?_,?_⟩
  · rw [stamp]
    exact fun seen => kept (.inr (marked (headSeen_ended ended seen)))
  · intro _
    cases complete : s.byte with
    | none =>
      rw [Option.toList_none,append_nil]
      exact ⟨fun earlier => unended (ended_of_dropLast earlier),fun earlier => absurd earlier unended⟩
    | some byte =>
      rw [Option.toList_some,dropLast_concat,(line_completes (i := i) valid complete).2]
      exact ⟨unended,fun _ => by omega⟩
  all_goals intro many; omega

theorem before_dropLast (inside : Inside s body) (nonempty : body ≠ []) (early : s.line.recent ≤ n) :
    s.line.before n = sfd ++ body.dropLast := by
  rw [Line.before,if_pos early,inside.bytes,dropLast_append_of_ne_nil nonempty]

theorem before_bytes (inside : Inside s body) (late : n < s.line.recent) : s.line.before n = sfd ++ body := by
  rw [Line.before,if_neg (by omega),inside.bytes]

theorem parse_dropLast (nonempty : body ≠ []) : parse body = feed (parse body.dropLast) (bufferOf (sfd ++ body)) := by
  have whole := parse_snoc body.dropLast (body.getLast nonempty)
  rwa [append_assoc,dropLast_concat_getLast nonempty] at whole

theorem no_byte (timed : Timed s.unit s.line) (early : s.line.recent < 4) : s.byte = none := by
  cases complete : s.byte with
  | none => rfl
  | some byte => exact absurd (timed.complete complete) (by omega)

-- Up to two cycles behind the line the parser does not see the byte yet.
theorem following_counts (timed : Timed s.unit s.line) (following : Following s body) (valid : s.unit.validPHYData = true)
    (early : s.line.recent = 1 ∨ s.line.recent = 2) : Following (s.next i) body := by
  have none := no_byte timed (by omega)
  obtain ⟨bytes,recent⟩ := line_waits (i := i) valid none
  have tracked := following.tracked
  have known : body ≠ [] ∧ s.unit.parser = parse body.dropLast ∧ Settled (parse body.dropLast) (bufferOf (sfd ++ body.dropLast)) := by
    rcases early with now | now <;> rw [now] at tracked <;> exact tracked
  obtain ⟨nonempty,parser,settled⟩ := known
  have seen : s.unit.regBuffer = bufferOf (sfd ++ body.dropLast) := by
    rw [following.shifting.seen,before_dropLast following.inside nonempty (by omega)]
  have beyond := settled_stateReg settled
  have unclear := settled.unclear
  rw [← parser] at beyond unclear
  have counted : (s.next i).unit.parser = (parse body.dropLast).counted s.unit.wrByteReg := by
    rw [parser_next,parser,seen,settled_next settled]
  obtain ⟨inside,stamp,kept⟩ := inside_step (i := i) following.inside valid beyond.1 (fun now => absurd now (by omega))
  rw [none,Option.toList_none,append_nil] at inside
  refine ⟨inside,shifting_step timed following.shifting valid unclear beyond.2,?_,?_⟩
  · rw [counted,following.shifting.write,recent]
    rcases early with now | now <;> rw [now]
    · exact ⟨nonempty,counted_false settled.unclear,settled⟩
    · refine ⟨nonempty,?_,settled⟩
      simp [Parser.counted,bump,settled.unclear]
  · rw [stamp,if_neg (by have := timed.counted; omega)]
    rintro ⟨k,before,state⟩
    apply kept
    by_cases last : k = body.length-1
    · -- The parser shows the state it was in before the last byte.
      have shown : s.unit.parser.stateReg = .stPTPhead := by
        rw [parser,dropLast_eq_take,← last,state]
      exact .inl (by simp [MIITimestampUnit.stamps,shown])
    · refine .inr (following.marked ⟨k,?_,state⟩)
      split <;> omega

theorem regBuffer_late (following : Following s body) (late : 3 ≤ s.line.recent) :
    s.unit.regBuffer = bufferOf (sfd ++ body) ∧ s.unit.wrByteReg = false := by
  have second : s.line.recent ≠ 2 := by omega
  exact ⟨by rw [following.shifting.seen,before_bytes following.inside (by omega)],by simp [following.shifting.write,second]⟩

section
variable (timed : Timed s.unit s.line) (following : Following s body) (valid : s.unit.validPHYData = true)
include timed following valid

theorem following_sees (now : s.line.recent = 3) : Stage (s.next i) := by
  have none := no_byte timed (by omega)
  obtain ⟨bytes,recent⟩ := line_waits (i := i) valid none
  have tracked := following.tracked
  rw [now] at tracked
  obtain ⟨nonempty,parser,settled⟩ := tracked
  obtain ⟨seen,unwritten⟩ := regBuffer_late following (by omega)
  have beyond : s.unit.parser.stateReg ≠ .stCollectSFD ∧ s.unit.parser.stateReg ≠ .stEOF := by
    rw [parser]
    exact ⟨(settled_stateReg settled).1,(settled_stateReg settled).2⟩
  have unclear : s.unit.parser.bufClrReg = false := by
    rw [parser]
    exact settled.unclear
  have unended := not_ended settled
  have step : (s.next i).unit.parser = (bump (parse body.dropLast)).next (bufferOf (sfd ++ body)) false true := by
    rw [parser_next,parser,seen,unwritten,valid]
  have whole : (s.next i).unit.parser.next (bufferOf (sfd ++ body)) false true = parse body := by
    rw [step,parse_dropLast nonempty,feed_eq]
  have follows (waits : Settled (s.next i).unit.parser (bufferOf (sfd ++ body)) ∨ TypeSeen (s.next i).unit.parser (bufferOf (sfd ++ body))) :
      Stage (s.next i) := by
    obtain ⟨inside,stamp,kept⟩ := inside_step (i := i) following.inside valid beyond.1 (fun _ => nonempty)
    rw [none,Option.toList_none,append_nil] at inside
    refine .following body ⟨inside,shifting_step timed following.shifting valid unclear beyond.2,?_,?_⟩
    · rw [recent,now]
      exact ⟨whole,waits,unended⟩
    · have marked := following.marked
      rw [if_neg (by omega)] at marked
      rw [stamp,if_neg (by omega)]
      exact fun head => kept (.inr (marked head))
  rcases first_step settled (bufferOf (sfd ++ body)) true with waits | state | type
  · exact follows (.inl (step ▸ waits))
  · have ended : Ended (parse body) := by
      rw [← whole,step,next_eof state]
      exact .inr rfl
    exact .ending _ 1 (follow_ended following valid (by omega) (fun _ => nonempty) beyond.1 ended unended 1 (by decide)
      (by rw [step,state]; rfl))
  · exact follows (.inr (step ▸ type))

theorem following_settles (now : s.line.recent = 4) : Stage (s.next i) := by
  have tracked := following.tracked
  rw [now] at tracked
  obtain ⟨whole,waits,unended⟩ := tracked
  obtain ⟨seen,unwritten⟩ := regBuffer_late following (by omega)
  have caught : (s.next i).unit.parser = parse body := by rw [parser_next,seen,unwritten,valid,whole]
  rcases waits with settled | type
  · have same : parse body = s.unit.parser := by rw [← whole,settled_next settled,counted_false settled.unclear]
    exact .following _ (follow_settled timed following valid (by omega) settled.unclear (settled_stateReg settled) caught
      (same ▸ settled))
  · have beyond : s.unit.parser.stateReg ≠ .stCollectSFD ∧ s.unit.parser.stateReg ≠ .stEOF := by simp [type.state]
    have third : s.line.recent = 3 → body ≠ [] := fun other => absurd other (by omega)
    rcases second_step type true with settled | ended | doubles
    · rw [whole] at settled
      exact .following _ (follow_settled timed following valid (by omega) type.unclear beyond caught settled)
    · rw [whole] at ended
      have final := follow_ended (i := i) following valid (by omega) third beyond.1 ended unended
      rcases ended with state | state
      · exact .ending _ 0 (final 0 (by decide) (by rw [caught,state]; rfl))
      · exact .ending _ 1 (final 1 (by decide) (by rw [caught,state]; rfl))
    · obtain ⟨state,tagged,count,tag⟩ := doubles
      have stuck : Stuck (parse body) := by
        rw [← whole,next_tag state (type.type ▸ tag) type.unclear]
        exact ⟨state,rfl,count⟩
      obtain ⟨inside,-⟩ := inside_step (i := i) following.inside valid beyond.1 third
      refine .lost _ ⟨inside.bytes,inside.busy,body.length,by simp,?_⟩
      rw [take_append_of_le_length le_rfl,take_length]
      exact stuck

theorem following_step : Stage (s.next i) := by
  match now : s.line.recent with
  | 0 => exact absurd now timed.counted
  | 1 => exact .following body (following_counts timed following valid (.inl now))
  | 2 => exact .following body (following_counts timed following valid (.inr now))
  | 3 => exact following_sees timed following valid now
  | 4 => exact following_settles timed following valid now
  | m+5 =>
    have tracked := following.tracked
    rw [now] at tracked
    obtain ⟨parser,settled⟩ := tracked
    obtain ⟨seen,unwritten⟩ := regBuffer_late following (by omega)
    have caught : (s.next i).unit.parser = parse body := by
      rw [parser_next,parser,seen,unwritten,settled_next settled,counted_false settled.unclear]
    exact .following _ (follow_settled timed following valid (by omega) (by rw [parser]; exact settled.unclear)
      (by rw [parser]; exact settled_stateReg settled) caught settled)
end

theorem following_incomplete (timed : Timed s.unit s.line) (following : Following s body) : ¬Complete body := by
  intro complete
  have ended := ended_dropLast complete
  have tracked := following.tracked
  match now : s.line.recent with
  | 0 => exact timed.counted now
  | 1 | 2 | 3 =>
    rw [now] at tracked
    exact not_ended tracked.2.2 (ended_of_dropLast ended)
  | 4 =>
    rw [now] at tracked
    exact tracked.2.2 (ended_of_dropLast ended)
  | m+5 =>
    rw [now] at tracked
    exact not_ended tracked.2 (ended_of_dropLast (ended_of_dropLast ended))

theorem ending_step (timed : Timed s.unit s.line) (ending : Ending s body since) (valid : s.unit.validPHYData = true) :
    Ending (s.next i) (body ++ s.byte.toList) (since+1) := by
  have nonempty : body ≠ [] := by
    rintro rfl
    rcases ending.ended with state | state <;> cases state
  have beyond : s.unit.parser.stateReg ≠ .stCollectSFD := by
    rw [ending.state]
    split <;> decide
  obtain ⟨inside,stamp,kept⟩ := inside_step (i := i) ending.inside valid beyond (fun _ => nonempty)
  have final (past : 1 ≤ since) : s.unit.parser.stateReg = .stEOF := by
    rw [ending.state,if_neg (by omega)]
  refine ⟨inside,?_,parse_ended ending.ended _,?_,?_,?_,?_,?_⟩
  · rw [parser_next,valid]
    by_cases first : since = 0
    · have state : s.unit.parser.stateReg = .stPCFHead := by rw [ending.state,if_pos first]
      simp [Parser.next,state]
    · rw [next_eof (final (by omega))]
      rfl
  · rw [stamp]
    exact fun seen => kept (.inr (ending.marked (headSeen_ended ending.ended seen)))
  · intro few
    obtain ⟨unended,soon⟩ := ending.soon (by omega)
    cases complete : s.byte with
    | none =>
      rw [Option.toList_none,append_nil,(line_waits (i := i) valid complete).2]
      exact ⟨unended,fun earlier => by have := soon earlier; omega⟩
    | some byte =>
      have late := timed.complete complete
      rw [Option.toList_some,dropLast_concat,(line_completes (i := i) valid complete).2]
      exact ⟨fun earlier => by have := soon earlier; omega,fun _ => by omega⟩
  · intro many
    have state := final (by omega)
    refine ⟨?_,?_⟩
    · rw [parser_next,next_eof state]
      rfl
    · simp [state]
  · intro many
    obtain ⟨clear,-⟩ := ending.clears (by omega)
    simp [Deserializer.next,clear]
  · intro many
    obtain ⟨count,-⟩ := ending.counts (by omega)
    simp [Deserializer.next,count,Deserializer.shiftAmount]

theorem sofDetect_take : ∀ n ≤ 8, Parser.sofDetect (bufferOf (sfd.take n)) = decide (n = 8) := by decide

theorem sofDetect_early {bytes : List (BitVec 8)} (early : bytes <+: sfd) :
    Parser.sofDetect (bufferOf bytes) = decide (bytes.length = 8) := by
  have short : bytes.length ≤ 8 := early.length_le
  have detect := sofDetect_take bytes.length short
  rwa [← prefix_iff_eq_take.mp early] at detect

theorem Collecting.detects (collecting : Collecting s) :
    Parser.sofDetect s.unit.regBuffer = decide (s.line.bytes = sfd ∧ s.line.recent = 3) := by
  have short : s.line.bytes.length ≤ 8 := collecting.early.length_le
  have whole : s.line.bytes = sfd ↔ s.line.bytes.length = 8 :=
    ⟨fun same => by rw [same]; rfl,collecting.early.eq_of_length⟩
  rw [collecting.shifting.seen,Line.before]
  split
  case isTrue early =>
    have shorter : s.line.bytes.dropLast <+: s.line.bytes := dropLast_prefix s.line.bytes
    rw [sofDetect_early (shorter.trans collecting.early)]
    simp only [decide_eq_decide,length_dropLast]
    omega
  case isFalse late =>
    rw [sofDetect_early collecting.early]
    have due := collecting.due
    simp only [decide_eq_decide]
    constructor
    · exact fun length => ⟨whole.mpr length,by have := due (whole.mpr length); omega⟩
    · exact fun both => whole.mp both.1

section
variable (timed : Timed s.unit s.line) (collecting : Collecting s)
include timed collecting

theorem collecting_shifting (admitted : system.admits s i)
    (valid : s.unit.validPHYData = true) : Shifting (s.next i).unit (s.next i).line := by
  have follows : s.unit.parser.stateReg ≠ .stEOF := by simp [collecting.state]
  cases clear : s.unit.parser.bufClrReg with
  | false => exact shifting_step timed collecting.shifting valid clear follows
  | true =>
    -- The unit is clearing its buffers, and no nibble can come in this cycle.
    obtain ⟨unframed,lazy,high⟩ := collecting.cleared clear
    obtain ⟨empty,none⟩ : s.line.bytes = [] ∧ s.line.nibble = none := by simpa [Line.framed] using unframed
    have idled : s.line.idled = true := (admitted.1 valid).resolve_left (by simp [lazy])
    have still := no_edge (high idled)
    have waits : s.byte = Option.none := by simp [State.byte,Line.byte,still]
    have long := timed.fresh empty
    obtain ⟨bytes,recent⟩ := line_waits (i := i) valid waits
    obtain ⟨clean,unwritten⟩ :=
      clean_step (i := i) (shifting_clean collecting.shifting none empty long) (by rw [still,Bool.false_and])
    refine clean_shifting clean unwritten ?_ (bytes.trans empty) (by omega)
    simp [Line.pending,still,none]

theorem collecting_step (admitted : system.admits s i) (valid : s.unit.validPHYData = true) : Stage (s.next i) := by
  have shifting := collecting_shifting timed collecting admitted valid
  have detects := collecting.detects
  have parser : (s.next i).unit.parser = (s.unit.parser.counted s.unit.wrByteReg).collectSFD s.unit.regBuffer := by
    rw [parser_next,Parser.next,collecting.state]
  by_cases start : s.line.bytes = sfd ∧ s.line.recent = 3
  · rw [decide_eq_true start] at detects
    obtain ⟨whole,now⟩ := start
    have none := no_byte timed (by omega)
    obtain ⟨bytes,recent⟩ := line_waits (i := i) valid none
    have begun : (s.next i).unit.parser = .start := by rw [parser,Parser.collectSFD,if_pos detects]
    have settled : Settled .start (bufferOf (sfd ++ [])) := ⟨rfl,Nat.two_pow_pos 11,by decide,rfl,rfl,rfl,rfl⟩
    refine .following [] ⟨⟨?_,?_,?_,?_⟩,shifting,?_,?_⟩
    · rw [bytes,whole,append_nil]
    · simpa only [State.next,Line.next] using valid
    · simp [valid]
    · have length : s.line.bytes.length = 8 := by rw [whole]; rfl
      simp [MIITimestampUnit.starts,collecting.state,detects,now,length]
    · rw [begun,recent,now]
      refine ⟨?_,.inl settled,not_ended settled⟩
      rfl
    · rintro ⟨k,before,-⟩
      split at before <;> exact absurd before (Nat.not_lt_zero k)
  · rw [decide_eq_false start] at detects
    have waits : (s.next i).unit.parser = s.unit.parser.counted s.unit.wrByteReg := by
      rw [parser,Parser.collectSFD,if_neg (by simp [detects])]
    refine .collecting ⟨?_,shifting,?_,?_,?_,?_⟩
    · rw [waits]
      exact collecting.state
    · cases complete : s.byte with
      | none =>
        rw [(line_waits (i := i) valid complete).1]
        exact collecting.early
      | some byte =>
        have bytes := (line_completes (i := i) valid complete).1
        have late := timed.complete complete
        have unfinished : s.line.bytes.length ≠ 8 := by
          intro length
          have := collecting.due (collecting.early.eq_of_length length)
          omega
        have short : s.line.bytes.length ≤ 8 := collecting.early.length_le
        have follows := admitted.2
        rwa [show ((s.next i).line.bytes.take 8) = (s.next i).line.bytes from take_of_length_le (by
          rw [bytes,length_append,length_singleton]
          omega)] at follows
    · intro whole
      cases complete : s.byte with
      | none =>
        obtain ⟨bytes,recent⟩ := line_waits (i := i) valid complete
        rw [bytes] at whole
        have due := collecting.due whole
        have other : s.line.recent ≠ 3 := fun now => start ⟨whole,now⟩
        omega
      | some byte =>
        rw [(line_completes (i := i) valid complete).2]
        decide
    · rw [waits]
      exact fun clear => absurd clear (by simp [Parser.counted])
    · intro body stamp
      have last : (s.next i).line.last = s.line.last := by simp [valid]
      have kept : (s.next i).unit.rtcTimestampReg = s.unit.rtcTimestampReg := by
        simp [MIITimestampUnit.stamps,collecting.state]
      rw [last,kept]
      exact collecting.stored body stamp

theorem collecting_idle (invalid : s.unit.validPHYData = false) (whole : Whole s i) : Stage (s.next i) := by
  have unframed : s.line.framed = false := by
    by_contra framed
    obtain ⟨complete,-⟩ := whole invalid (by simpa using framed)
    have inside := complete.inside
    have short : s.line.bytes.length ≤ 8 := collecting.early.length_le
    rw [drop_of_length_le short] at inside
    simp at inside
  obtain ⟨empty,none⟩ : s.line.bytes = [] ∧ s.line.nibble = none := by simpa [Line.framed] using unframed
  have clean := shifting_clean collecting.shifting none empty (timed.fresh empty)
  obtain ⟨after,unwritten⟩ := clean_step (i := i) clean (by rw [invalid,Bool.and_false])
  have waits : (s.next i).unit.parser = s.unit.parser.counted s.unit.wrByteReg := by
    rw [parser_next,Parser.next,collecting.state,clean.seen]
    rfl
  have bytes : (s.next i).line.bytes = [] := by simp [invalid]
  refine .collecting ⟨?_,clean_shifting after unwritten ?_ bytes ?_,?_,?_,?_,?_⟩
  · rw [waits]
    exact collecting.state
  · simp [invalid]
  · simp [invalid]
  · rw [bytes]
    exact nil_prefix
  · rw [bytes]
    exact fun other => absurd other (by decide)
  · rw [waits]
    exact fun clear => absurd clear (by simp [Parser.counted])
  · intro body stamp
    have last : (s.next i).line.last = s.line.last := by simp [unframed]
    have kept : (s.next i).unit.rtcTimestampReg = s.unit.rtcTimestampReg := by
      simp [MIITimestampUnit.stamps,collecting.state]
    rw [last,kept]
    exact collecting.stored body stamp
end

theorem whole_body (bytes : s.line.bytes = sfd ++ body) (invalid : s.unit.validPHYData = false) (whole : Whole s i) :
    Complete body ∧ (CarriesPtp body → Plain body) := by
  have framed : s.line.framed = true := by simp [Line.framed,bytes,sfd]
  have known := whole invalid framed
  rwa [bytes] at known

theorem ending_idle (ending : Ending s body since) (invalid : s.unit.validPHYData = false) (whole : Whole s i) :
    Collecting (s.next i) := by
  obtain ⟨complete,plain⟩ := whole_body ending.inside.bytes invalid whole
  have long : 4 ≤ since := by
    by_contra short
    exact (ending.soon (by omega)).1 (ended_dropLast complete)
  have state : s.unit.parser.stateReg = .stEOF := by rw [ending.state,if_neg (by omega)]
  obtain ⟨clear,-⟩ := ending.clears (by omega)
  obtain ⟨count,-⟩ := ending.counts (by omega)
  have parser : (s.next i).unit.parser = s.unit.parser.eof false := by rw [parser_next,next_eof state,invalid]
  have bytes : (s.next i).line.bytes = [] := by simp [invalid]
  have clean : Clean (s.next i).unit := by
    constructor <;>
      simp [Deserializer.next,clear,count,Deserializer.shiftAmount,state]
  refine ⟨?_,clean_shifting clean (ending.done long) ?_ bytes ?_,?_,?_,?_,?_⟩
  · rw [parser]
    rfl
  · simp [invalid]
  · simp [invalid]
  · rw [bytes]
    exact nil_prefix
  · rw [bytes]
    exact fun other => absurd other (by decide)
  · intro _
    refine ⟨by simp [Line.framed,invalid],by simpa only [State.next,Line.next] using invalid,?_⟩
    intro idled
    have edge : s.unit.risingMIIEdge = true := by simpa [invalid,ending.inside.active] using idled
    exact edge_high edge
  · intro last stamp found carries
    have framed : s.line.framed = true := by simp [Line.framed,ending.inside.bytes,sfd]
    have same : body = last ∧ s.line.stamp = stamp := by
      simpa [invalid,framed,ending.inside.bytes,sfd] using found
    obtain ⟨rfl,rfl⟩ := same
    have kept : (s.next i).unit.rtcTimestampReg = s.unit.rtcTimestampReg := by
      simp [MIITimestampUnit.stamps,state]
    rw [kept]
    exact ending.marked (carries_head complete carries (plain carries))

theorem lost_step (lost : Lost s body) (valid : s.unit.validPHYData = true) : Lost (s.next i) (body ++ s.byte.toList) := by
  refine ⟨?_,?_,?_⟩
  · simp only [State.next,Line.next,valid]
    rw [lost.bytes]
    rfl
  · simpa only [State.next,Line.next] using valid
  · obtain ⟨k,inside,stuck⟩ := lost.stuck
    refine ⟨k,by rw [length_append]; omega,?_⟩
    rwa [take_append_of_le_length inside]

theorem stage_step (timed : Timed s.unit s.line) (stage : Stage s) (admitted : (system.restrict Whole).admits s i) :
    Stage (s.next i) := by
  obtain ⟨admitted,whole⟩ := admitted
  cases valid : s.unit.validPHYData with
  | true =>
    cases stage with
    | collecting collecting => exact collecting_step timed collecting admitted valid
    | following body following => exact following_step timed following valid
    | ending body since ending => exact .ending _ _ (ending_step timed ending valid)
    | lost body lost => exact .lost _ (lost_step lost valid)
  | false =>
    cases stage with
    | collecting collecting => exact collecting_idle timed collecting valid whole
    | following body following =>
      exact absurd (whole_body following.inside.bytes valid whole).1 (following_incomplete timed following)
    | ending body since ending => exact .collecting (ending_idle ending valid whole)
    | lost body lost =>
      obtain ⟨k,inside,stuck⟩ := lost.stuck
      exact absurd stuck (complete_unstuck (whole_body lost.bytes valid whole).1 inside)

theorem stage_start (begun : system.start s) : Timed s.unit s.line ∧ Stage s := by
  obtain ⟨unit,line⟩ := s
  obtain ⟨fresh,rfl⟩ := begun
  refine ⟨by constructor <;> simp [Line.quiet],.collecting ⟨fresh.state,?_, nil_prefix,by simp [Line.quiet,sfd],?_,?_⟩⟩
  · exact clean_shifting ⟨fresh.count,fresh.done,fresh.buffer,fresh.seen⟩ fresh.write rfl rfl (Nat.le_refl 5)
  · intro clear
    rw [fresh.unclear] at clear
    cases clear
  · intro body stamp found
    cases found

theorem stage_timestamps (stage : Stage s) : Timestamps s := by
  have reduce (between : s.line.busy = false) : Collecting s := by
    cases stage with
    | collecting collecting => exact collecting
    | following body following => exact absurd following.inside.busy (by simp [between])
    | ending body since ending => exact absurd ending.inside.busy (by simp [between])
    | lost body lost => exact absurd lost.busy (by simp [between])
  exact ⟨fun between => (reduce between).state,fun body stamp between => (reduce between).stored body stamp⟩
end Stages

theorem mii_timestamps (path : Reached (system.restrict Whole) s) : Timestamps s := by
  have invariant : Timed s.unit s.line ∧ Stage s :=
    path.invariant (fun _ begun => stage_start begun)
      fun _ _ valid admitted => ⟨timed_step valid.1,stage_step valid.1 valid.2 admitted⟩
  exact stage_timestamps invariant.2

def reset : MIITimestampUnit where
  miiDvReg := false
  miiDvReg2 := false
  miiErrReg := false
  miiErrReg2 := false
  miiClkReg := false
  miiClkReg2 := false
  miiDataReg := 0
  miiDataReg2 := 0
  deserializePHYbyte := ⟨0,0,false⟩
  deserializePHYBuffer := ⟨0,0,false⟩
  wrByteReg := false
  regBuffer := 0
  parser := ⟨.stCollectSFD,0,0,0,0,0,false,false,false,false⟩
  sfdReg := 0
  sofReg := false
  eofReg := false
  tempTimestampReg := 0
  rtcTimestampReg := 0
  timestampAvailReg := false
  masterReg := ⟨.idle,0,0⟩
  dataReg := 0
  respReg := .null

def initial : State := ⟨reset,.quiet⟩

theorem initial_starts : system.start initial := ⟨⟨rfl,rfl,rfl,rfl,rfl,rfl,rfl⟩,rfl⟩

-- The MII clock is half as fast as the clock of the unit, and the time is the number of the cycle.
def tick (dv : Bool) (data : BitVec 4) : List MIIChannel := [⟨false,dv,data,false⟩,⟨true,dv,data,false⟩]

def frame (body : List (BitVec 8)) : List MIIChannel :=
  tick false 0 ++ (sfd ++ body).flatMap (fun byte => tick true (byte.extractLsb' 0 4) ++ tick true (byte.extractLsb' 4 4)) ++
    tick false 0 ++ tick false 0

def cycles (channel : List MIIChannel) : List Cycle := channel.mapIdx fun t mii => ⟨mii,BitVec.ofNat 64 t,⟨.idle,0,0⟩⟩

-- A packet with a UDP datagram from port `source` to port 319.
def datagram (source : BitVec 16) (payload : List (BitVec 8)) : List (BitVec 8) :=
  replicate 12 0x11#8 ++ [0x08#8,0x00#8,0x45#8] ++ replicate 8 0x00#8 ++ [0x11#8] ++ replicate 10 0x00#8 ++
    [source.extractLsb' 8 8,source.extractLsb' 0 8,0x01#8,0x3F#8] ++ replicate 4 0x00#8 ++ payload

def message : List (BitVec 8) := datagram 319#16 (replicate 36 0x00#8)

theorem mii_timestamps_message :
    ∃ s, Reached (system.restrict Whole) s ∧ s.line.last = some (message,37#64) ∧ s.line.busy = false ∧ CarriesPtp message ∧
      s.unit.rtcTimestampReg = 37#64 := by
  obtain ⟨s,path,last,between⟩ := (Reached.start (m := system.restrict Whole) initial_starts).visits
    (p := fun s => s.line.last = some (message,37#64) ∧ s.line.busy = false) (cycles (frame message)) (by decide +kernel)
  have carries : CarriesPtp message := by decide +kernel
  exact ⟨s,path,last,between,carries,(mii_timestamps path).stored message 37#64 between last carries⟩

def doubleTagged : List (BitVec 8) :=
  replicate 12 0x11#8 ++ [0x81#8,0x00#8,0x00#8,0x01#8,0x81#8,0x00#8,0x00#8,0x02#8,0x08#8,0x00#8]

-- A frame that ends behind one byte, a frame with two tags, and a datagram from another port.
theorem frames_missed :
    (∃ s, Reached system s ∧ s.line.last = some ([0x01#8],37#64) ∧ s.line.busy = false ∧ s.unit.parser.stateReg = .stDstMAC) ∧
    (∃ s, Reached system s ∧ s.line.last = some (doubleTagged,37#64) ∧ s.line.busy = false ∧
      s.unit.parser.stateReg = .stTypeEth) ∧
    ∃ s, Reached system s ∧ s.line.last = some (datagram 1024#16 [0x00#8,0x02#8],37#64) ∧ s.line.busy = false ∧
      Complete (datagram 1024#16 [0x00#8,0x02#8]) ∧ CarriesPtp (datagram 1024#16 [0x00#8,0x02#8]) ∧
      s.unit.rtcTimestampReg = 0#64 :=
  have begun := Reached.start (m := system) initial_starts
  ⟨begun.visits (cycles (frame [0x01#8])) (by decide +kernel),begun.visits (cycles (frame doubleTagged)) (by decide +kernel),
    begun.visits (cycles (frame (datagram 1024#16 [0x00#8,0x02#8]))) (by decide +kernel)⟩
end Patmos.Mii
