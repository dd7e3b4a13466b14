import Patmos.TransitionSystem
import Patmos.NocDma
import Patmos.Numbered
namespace Patmos.SamplingPort
open Transition NocDma Numbered List Function

inductive Impl where
  | doubleNoc
  | tripleNoc
  deriving DecidableEq, Repr

def Impl.buffers : Impl → Nat
  | .doubleNoc => 2
  | .tripleNoc => 3

-- -1 in an unsigned int
def unset : Nat := 2^32-1

-- The words of each port that the transfers read or write.
inductive SourceWord where
  | sample (word : Nat)
  | next
  | reading
  deriving DecidableEq, Repr

inductive SinkWord where
  | buffer (index word : Nat)
  | newest
  deriving DecidableEq, Repr

-- The statement of mp_write that comes next.
inductive WritePc where
  | idle
  | sendSample
  | awaitSample
  | acquire
  | sendNewest
  | awaitNewest
  | takeReading
  | release
  | move
  deriving DecidableEq, Repr

-- The statement of mp_read that comes next.
inductive ReadPc where
  | idle
  | acquire
  | takeNewest
  | sendReading
  | awaitReading
  | release
  | copy
  deriving DecidableEq, Repr

structure Source where
  pc : WritePc
  memory : SourceWord → Nat
  reading : Nat
  dma : Transfer SourceWord SinkWord Nat

structure Sink where
  pc : ReadPc
  memory : SinkWord → Nat
  newest : Nat
  word : Nat
  sample : Nat → Nat
  dma : Transfer SinkWord SourceWord Nat

inductive Side where
  | source
  | sink
  deriving DecidableEq, Repr

-- A finished mp_read: whether an mp_write had completed when it began, how many samples were published when it took the
-- lock, and what it copied out.
structure Read where
  settled : Bool
  published : Nat
  sample : Nat → Nat

structure State where
  source : Source
  sink : Sink
  lock : Option Side
  written : List (Nat → Nat)
  published : Nat
  completed : Nat
  settled : Bool
  acquired : Nat
  reads : List Read

def sampleBlock (words next : Nat) : List (SourceWord × SinkWord) :=
  (range words).map fun i => (.sample i,.buffer next i)

def wrap (next : Nat) : Nat := if next+1 ≥ 3 then 0 else next+1

def Impl.advance : Impl → Nat → Nat → Nat
  | .doubleNoc,next,_ => next ^^^ 1
  | .tripleNoc,next,reading => if wrap next = reading then wrap (wrap next) else wrap next

section
variable (impl : Impl) (words : Nat)

-- mp_write. The statements that move next after the lock is released use variables of the source only.
def runSource (s : State) : State :=
  match s.source.pc with
  | .idle => s
  | .sendSample =>
    if s.source.dma.done then
      {s with source := {s.source with pc := .awaitSample,dma := .start (sampleBlock words (s.source.memory .next))}}
    else s
  | .awaitSample => if s.source.dma.done then {s with source := {s.source with pc := .acquire}} else s
  | .acquire => if s.lock = none then {s with source := {s.source with pc := .sendNewest},lock := some .source} else s
  | .sendNewest =>
    if s.source.dma.done then {s with source := {s.source with pc := .awaitNewest,dma := .start [(.next,.newest)]}} else s
  | .awaitNewest =>
    if s.source.dma.done then
      {s with source := {s.source with pc := match impl with
        | .doubleNoc => .release
        | .tripleNoc => .takeReading}}
    else s
  | .takeReading => {s with source := {s.source with pc := .release,reading := s.source.memory .reading}}
  | .release => {s with source := {s.source with pc := .move},lock := none}
  | .move =>
    {s with
      source := {s.source with
        pc := .idle
        memory := update s.source.memory .next (impl.advance (s.source.memory .next) s.source.reading)}
      completed := s.completed+1}

-- A word of the buffer that newest selects. Before the first sample this is a word in front of the buffers.
def Sink.load (c : Sink) (elsewhere : Nat) : Nat :=
  if c.newest < impl.buffers then c.memory (.buffer c.newest c.word) else elsewhere

def finish (s : State) : State :=
  {s with sink := {s.sink with pc := .idle},reads := s.reads ++ [⟨s.settled,s.acquired,s.sink.sample⟩]}

-- mp_read
def runSink (words elsewhere : Nat) (s : State) : State :=
  match s.sink.pc with
  | .idle => s
  | .acquire =>
    if s.lock = none then
      {s with sink := {s.sink with pc := .takeNewest},lock := some .sink,acquired := s.published}
    else s
  | .takeNewest =>
    {s with sink := {s.sink with
      pc := match impl with
        | .doubleNoc => .copy
        | .tripleNoc => .sendReading
      newest := s.sink.memory .newest
      word := 0}}
  | .sendReading =>
    if s.sink.dma.done then {s with sink := {s.sink with pc := .awaitReading,dma := .start [(.newest,.reading)]}} else s
  | .awaitReading => if s.sink.dma.done then {s with sink := {s.sink with pc := .release}} else s
  | .release =>
    match impl with
    | .doubleNoc => finish {s with lock := none}
    | .tripleNoc => {s with sink := {s.sink with pc := .copy},lock := none}
  | .copy =>
    if s.sink.word < words then
      {s with sink := {s.sink with
        word := s.sink.word+1
        sample := update s.sink.sample s.sink.word (s.sink.load impl elsewhere)}}
    else match impl with
      | .doubleNoc => {s with sink := {s.sink with pc := .release}}
      | .tripleNoc => finish s

inductive Action where
  | write (sample : Nat → Nat)
  | runSource
  | read
  | runSink (elsewhere : Nat)
  | fetch (side : Side)
  | deliver (side : Side)

def place (memory : SourceWord → Nat) (sample : Nat → Nat) : SourceWord → Nat
  | .sample word => sample word
  | other => memory other

def apply (s : State) : Action → State
  | .write sample =>
    if s.source.pc = .idle then
      {s with
        source := {s.source with pc := .sendSample,memory := place s.source.memory sample}
        written := s.written ++ [sample]}
    else s
  | .runSource => runSource impl words s
  | .read =>
    if s.sink.pc = .idle then
      {s with sink := {s.sink with pc := .acquire},settled := decide (0 < s.completed)}
    else s
  | .runSink elsewhere => runSink impl words elsewhere s
  | .fetch .source => {s with source := {s.source with dma := s.source.dma.fetch s.source.memory}}
  | .fetch .sink => {s with sink := {s.sink with dma := s.sink.dma.fetch s.sink.memory}}
  | .deliver .source =>
    match s.source.dma.arrival with
    | none => s
    | some word =>
      {s with
        source := {s.source with dma := s.source.dma.deliver}
        sink := {s.sink with memory := update s.sink.memory word.1 word.2}
        published := if word.1 = .newest then s.published+1 else s.published}
  | .deliver .sink =>
    match s.sink.dma.arrival with
    | none => s
    | some word =>
      {s with
        sink := {s.sink with dma := s.sink.dma.deliver}
        source := {s.source with memory := update s.source.memory word.1 word.2}}

def initial (s : State) : Prop :=
  s.source.pc = .idle ∧ s.source.memory .next = 0 ∧ s.source.dma = .none ∧
    s.sink.pc = .idle ∧ s.sink.memory .newest = unset ∧ s.sink.dma = .none ∧
    s.lock = none ∧ s.written = [] ∧ s.published = 0 ∧ s.completed = 0 ∧ s.acquired = 0 ∧ s.reads = []

def system : System State Action where
  start := initial
  admits _ _ := True
  next s action := apply impl words s action

def Filled (s : State) (index k : Nat) : Prop := Matches s.written k words fun i => s.sink.memory (.buffer index i)
end

section Stages
-- The sink may still copy out of the buffer in its variable newest.
def claims : Impl → ReadPc → Bool
  | .doubleNoc,.copy => true
  | .tripleNoc,.sendReading | .tripleNoc,.awaitReading | .tripleNoc,.release | .tripleNoc,.copy => true
  | _,_ => false

def Free (impl : Impl) (s : State) : Prop :=
  s.source.memory .next ≠ s.sink.memory .newest ∧
    (claims impl s.sink.pc = true → s.sink.newest ≠ s.source.memory .next)

-- After publication a buffer that the sink claims is the newest one or the one that the source has found it to read.
def Known (impl : Impl) (s : State) : Prop :=
  claims impl s.sink.pc = true →
    s.sink.newest = s.sink.memory .newest ∨ impl = .tripleNoc ∧ s.sink.newest = s.source.reading

def Called (words : Nat) (s : State) : Prop :=
  s.written.length = s.published+1 ∧ Matches s.written s.published words fun i => s.source.memory (.sample i)

def Stored (words : Nat) (s : State) : Prop :=
  s.written.length = s.published+1 ∧ Filled words s (s.source.memory .next) s.published

def Published (s : State) : Prop :=
  s.written.length = s.published ∧ s.sink.memory .newest = s.source.memory .next ∧ s.completed < s.published

inductive Writer (impl : Impl) (words : Nat) (s : State) : WritePc → Prop where
  | idle : s.source.dma = .none → s.written.length = s.published → Free impl s → Writer impl words s .idle
  | sendSample : s.source.dma = .none → Called words s → Free impl s → Writer impl words s .sendSample
  | awaitSample : (∀ i, held (.sample i) = s.source.memory (.sample i)) →
      Moves s.source.dma (sampleBlock words (s.source.memory .next)) landed held → Landed s.sink.memory held landed →
      Called words s → Free impl s → Writer impl words s .awaitSample
  | acquire : s.source.dma = .none → Stored words s → Free impl s → Writer impl words s .acquire
  | sendNewest : s.source.dma = .none → Stored words s → Free impl s → s.lock = some .source →
      Writer impl words s .sendNewest
  | newestSent : Carries s.source.dma .next .newest (s.source.memory .next) → Stored words s → Free impl s →
      s.lock = some .source → Writer impl words s .awaitNewest
  | newestArrived : s.source.dma = .none → Published s → s.lock = some .source → Writer impl words s .awaitNewest
  | takeReading : impl = .tripleNoc → s.source.dma = .none → Published s → s.lock = some .source →
      Writer impl words s .takeReading
  | release : s.source.dma = .none → Published s → Known impl s → s.lock = some .source → Writer impl words s .release
  | move : s.source.dma = .none → Published s → Known impl s → Writer impl words s .move

def Holding (s : State) : Prop := s.lock = some .sink ∧ s.acquired = s.published

def Settled (s : State) : Prop := s.settled = true → 0 < s.acquired

-- The buffer in the variable newest has the last sample published before the sink took the lock, and so do the words
-- copied so far.
def Snapshot (impl : Impl) (words : Nat) (s : State) : Prop :=
  s.acquired ≠ 0 → s.sink.newest < impl.buffers ∧ Filled words s s.sink.newest (s.acquired-1) ∧
    Matches s.written (s.acquired-1) s.sink.word s.sink.sample

def Copied (words : Nat) (s : State) : Prop := s.acquired ≠ 0 → Matches s.written (s.acquired-1) words s.sink.sample

inductive Reader (impl : Impl) (words : Nat) (s : State) : ReadPc → Prop where
  | idle : s.sink.dma = .none → Reader impl words s .idle
  | acquire : s.sink.dma = .none → (s.settled = true → 0 < s.published) → Reader impl words s .acquire
  | takeNewest : s.sink.dma = .none → Holding s → Settled s → Reader impl words s .takeNewest
  | sendReading : impl = .tripleNoc → s.sink.dma = .none → Holding s → Settled s → Snapshot impl words s →
      s.sink.memory .newest = s.sink.newest → Reader impl words s .sendReading
  | readingSent : impl = .tripleNoc → Carries s.sink.dma .newest .reading s.sink.newest → Holding s → Settled s →
      Snapshot impl words s → s.sink.memory .newest = s.sink.newest → Reader impl words s .awaitReading
  | readingArrived : impl = .tripleNoc → s.sink.dma = .none → Holding s → Settled s → Snapshot impl words s →
      s.source.memory .reading = s.sink.newest → Reader impl words s .awaitReading
  | handOver : impl = .tripleNoc → s.sink.dma = .none → Holding s → Settled s → Snapshot impl words s →
      s.source.memory .reading = s.sink.newest → Reader impl words s .release
  | copyOutside : impl = .tripleNoc → s.sink.dma = .none → Settled s → Snapshot impl words s →
      s.source.memory .reading = s.sink.newest → Reader impl words s .copy
  | copyLocked : impl = .doubleNoc → s.sink.dma = .none → Holding s → Settled s → Snapshot impl words s →
      Reader impl words s .copy
  | release : impl = .doubleNoc → s.sink.dma = .none → Holding s → Settled s → Copied words s →
      Reader impl words s .release

def Whole (words : Nat) (written : List (Nat → Nat)) (r : Read) : Prop :=
  (r.settled = true → 0 < r.published) ∧ (0 < r.published → Matches written (r.published-1) words r.sample)

def Latest (impl : Impl) (words : Nat) (s : State) : Prop :=
  if s.published = 0 then s.sink.memory .newest = unset
  else s.sink.memory .newest < impl.buffers ∧ Filled words s (s.sink.memory .newest) (s.published-1)

structure Finished (words : Nat) (written : List (Nat → Nat)) (acquired : Nat) (reads : List Read) : Prop where
  whole : ∀ r ∈ reads, Whole words written r
  earlier : ∀ r ∈ reads, r.published ≤ acquired
  ordered : reads.Pairwise fun r later => r.published ≤ later.published

structure Valid (impl : Impl) (words : Nat) (s : State) : Prop where
  writer : Writer impl words s s.source.pc
  reader : Reader impl words s s.sink.pc
  latest : Latest impl words s
  next : s.source.memory .next < impl.buffers
  completed : s.completed ≤ s.published
  acquired : s.acquired ≤ s.published
  finished : Finished words s.written s.acquired s.reads
end Stages

section Frames
variable {impl : Impl} {words : Nat} {s t : State}

structure SinkKept (impl : Impl) (words : Nat) (s t : State) : Prop where
  sink : t.sink = {s.sink with memory := t.sink.memory}
  written : Matches s.written k n content → Matches t.written k n content
  filled : claims impl s.sink.pc = true → Filled words s s.sink.newest k → Filled words t s.sink.newest k
  held : s.lock = some .sink →
    t.lock = some .sink ∧ t.published = s.published ∧ t.sink.memory .newest = s.sink.memory .newest
  published : s.published ≤ t.published
  acquired : t.acquired = s.acquired
  settled : t.settled = s.settled
  reading : t.source.memory .reading = s.source.memory .reading

namespace SinkKept
section
variable (kept : SinkKept impl words s t)
include kept

theorem snapshot (claimed : claims impl s.sink.pc = true) (snapshot : Snapshot impl words s) : Snapshot impl words t := by
  intro some
  rw [kept.acquired] at some ⊢
  rw [kept.sink]
  obtain ⟨small,filled,copied⟩ := snapshot some
  exact ⟨small,kept.filled claimed filled,kept.written copied⟩

theorem holding (holding : Holding s) : Holding t := by
  obtain ⟨lock,published,-⟩ := kept.held holding.1
  exact ⟨lock,by rw [kept.acquired,published,holding.2]⟩

theorem settles (settled : Settled s) : Settled t := by
  unfold Settled
  rw [kept.acquired,kept.settled]
  exact settled

theorem copied (copied : Copied words s) : Copied words t := by
  intro some
  rw [kept.acquired] at some ⊢
  rw [kept.sink]
  exact kept.written (copied some)

theorem newest : t.sink.newest = s.sink.newest := by rw [kept.sink]

theorem dma : t.sink.dma = s.sink.dma := by rw [kept.sink]

theorem reader (before : Reader impl words s s.sink.pc) : Reader impl words t t.sink.pc := by
  have same : t.sink.pc = s.sink.pc := by rw [kept.sink]
  have claim := kept.snapshot
  rw [same]
  generalize s.sink.pc = pc at before claim
  cases before with
  | idle free => exact .idle (kept.dma ▸ free)
  | acquire free settled =>
    refine .acquire (kept.dma ▸ free) fun begun => ?_
    exact Nat.lt_of_lt_of_le (settled (kept.settled ▸ begun)) kept.published
  | takeNewest free holding settled => exact .takeNewest (kept.dma ▸ free) (kept.holding holding) (kept.settles settled)
  | sendReading triple free holding settled snapshot here =>
    subst triple
    refine .sendReading rfl (kept.dma ▸ free) (kept.holding holding) (kept.settles settled) (claim rfl snapshot) ?_
    rw [(kept.held holding.1).2.2,kept.newest,here]
  | readingSent triple carries holding settled snapshot here =>
    subst triple
    refine .readingSent rfl ?_ (kept.holding holding) (kept.settles settled) (claim rfl snapshot) ?_
    · rw [kept.dma,kept.newest]
      exact carries
    · rw [(kept.held holding.1).2.2,kept.newest,here]
  | readingArrived triple free holding settled snapshot reading =>
    subst triple
    refine .readingArrived rfl (kept.dma ▸ free) (kept.holding holding) (kept.settles settled) (claim rfl snapshot) ?_
    rw [kept.reading,kept.newest,reading]
  | handOver triple free holding settled snapshot reading =>
    subst triple
    refine .handOver rfl (kept.dma ▸ free) (kept.holding holding) (kept.settles settled) (claim rfl snapshot) ?_
    rw [kept.reading,kept.newest,reading]
  | copyOutside triple free settled snapshot reading =>
    subst triple
    refine .copyOutside rfl (kept.dma ▸ free) (kept.settles settled) (claim rfl snapshot) ?_
    rw [kept.reading,kept.newest,reading]
  | copyLocked double free holding settled snapshot =>
    subst double
    exact .copyLocked rfl (kept.dma ▸ free) (kept.holding holding) (kept.settles settled) (claim rfl snapshot)
  | release double free holding settled copied =>
    exact .release double (kept.dma ▸ free) (kept.holding holding) (kept.settles settled) (kept.copied copied)
end
end SinkKept

-- What the writer needs of a step of the sink.
structure SourceKept (impl : Impl) (s t : State) : Prop where
  source : t.source = {s.source with memory := t.source.memory}
  elsewhere : word ≠ .reading → t.source.memory word = s.source.memory word
  memory : t.sink.memory = s.sink.memory
  written : t.written = s.written
  published : t.published = s.published
  completed : t.completed = s.completed
  lock : s.lock = some .source → t.lock = some .source
  claim : claims impl t.sink.pc = true →
    claims impl s.sink.pc = true ∧ t.sink.newest = s.sink.newest ∨ t.sink.newest = s.sink.memory .newest

namespace SourceKept
section
variable (kept : SourceKept impl s t)
include kept

theorem next : t.source.memory .next = s.source.memory .next := kept.elsewhere (by decide)

theorem sample (i : Nat) : t.source.memory (.sample i) = s.source.memory (.sample i) :=
  kept.elsewhere nofun

theorem free (free : Free impl s) : Free impl t := by
  unfold Free
  rw [kept.next,kept.memory]
  refine ⟨free.1,fun claimed => ?_⟩
  rcases kept.claim claimed with ⟨before,same⟩ | newest
  · rw [same]
    exact free.2 before
  · rw [newest]
    exact free.1.symm

theorem known (known : Known impl s) : Known impl t := by
  intro claimed
  rw [kept.memory,kept.source]
  rcases kept.claim claimed with ⟨before,same⟩ | newest
  · rw [same]
    exact known before
  · exact .inl newest

theorem filled (filled : Filled words s index k) : Filled words t index k := by
  unfold Filled
  rw [kept.written,kept.memory]
  exact filled

theorem called (called : Called words s) : Called words t := by
  unfold Called
  rw [kept.written,kept.published]
  exact ⟨called.1,called.2.congr fun i _ => kept.sample i⟩

theorem stored (stored : Stored words s) : Stored words t := by
  unfold Stored
  rw [kept.written,kept.published,kept.next]
  exact ⟨stored.1,kept.filled stored.2⟩

theorem publishes (published : Published s) : Published t := by
  unfold Published
  rw [kept.written,kept.published,kept.next,kept.memory,kept.completed]
  exact published

theorem dma : t.source.dma = s.source.dma := by rw [kept.source]

theorem writer (before : Writer impl words s s.source.pc) : Writer impl words t t.source.pc := by
  have same : t.source.pc = s.source.pc := by rw [kept.source]
  rw [same]
  generalize s.source.pc = pc at before
  cases before with
  | idle none length free => exact .idle (kept.dma ▸ none) (by rw [kept.written,kept.published,length]) (kept.free free)
  | sendSample none called free => exact .sendSample (kept.dma ▸ none) (kept.called called) (kept.free free)
  | awaitSample held moves landed called free =>
    refine .awaitSample (fun i => by rw [held i,kept.sample]) ?_ (kept.memory ▸ landed) (kept.called called) (kept.free free)
    rw [kept.dma,kept.next]
    exact moves
  | acquire none stored free => exact .acquire (kept.dma ▸ none) (kept.stored stored) (kept.free free)
  | sendNewest none stored free lock =>
    exact .sendNewest (kept.dma ▸ none) (kept.stored stored) (kept.free free) (kept.lock lock)
  | newestSent carries stored free lock =>
    refine .newestSent ?_ (kept.stored stored) (kept.free free) (kept.lock lock)
    rw [kept.dma,kept.next]
    exact carries
  | newestArrived none published lock => exact .newestArrived (kept.dma ▸ none) (kept.publishes published) (kept.lock lock)
  | takeReading triple none published lock =>
    exact .takeReading triple (kept.dma ▸ none) (kept.publishes published) (kept.lock lock)
  | release none published known lock =>
    exact .release (kept.dma ▸ none) (kept.publishes published) (kept.known known) (kept.lock lock)
  | move none published known => exact .move (kept.dma ▸ none) (kept.publishes published) (kept.known known)
end
end SourceKept
end Frames

section Steps
variable {impl : Impl} {words : Nat} {s t : State}

theorem latest_kept (latest : Latest impl words s) (newest : t.sink.memory .newest = s.sink.memory .newest)
    (published : t.published = s.published)
    (filled : ∀ k, Filled words s (s.sink.memory .newest) k → Filled words t (s.sink.memory .newest) k) :
    Latest impl words t := by
  unfold Latest at latest ⊢
  rw [newest,published]
  split at latest
  · rw [if_pos ‹_›]
    exact latest
  · rw [if_neg ‹_›]
    exact ⟨latest.1,filled _ latest.2⟩

theorem Valid.sourceStep (valid : Valid impl words s) (kept : SinkKept impl words s t)
    (writer : Writer impl words t t.source.pc) (latest : Latest impl words t)
    (next : t.source.memory .next < impl.buffers) (completed : t.completed ≤ t.published) (reads : t.reads = s.reads) :
    Valid impl words t := by
  refine ⟨writer,kept.reader valid.reader,latest,next,completed,?_,?_,?_,?_⟩
  · rw [kept.acquired]
    exact Nat.le_trans valid.acquired kept.published
  · rw [reads]
    intro r member
    obtain ⟨settled,same⟩ := valid.finished.whole r member
    exact ⟨settled,fun some => kept.written (same some)⟩
  · rw [reads,kept.acquired]
    exact valid.finished.earlier
  · rw [reads]
    exact valid.finished.ordered

theorem Valid.sinkStep (valid : Valid impl words s) (kept : SourceKept impl s t) (reader : Reader impl words t t.sink.pc)
    (acquired : t.acquired ≤ t.published)
    (finished : Finished words t.written t.acquired t.reads) :
    Valid impl words t := by
  refine ⟨kept.writer valid.writer,reader,?_,?_,?_,acquired,finished⟩
  · exact latest_kept valid.latest (by rw [kept.memory]) kept.published fun _ => kept.filled
  · rw [kept.next]
    exact valid.next
  · rw [kept.completed,kept.published]
    exact valid.completed

-- A buffer that the sink claims while the source has the lock is known to the source as the one being read.
theorem claimed_outside (reader : Reader impl words s s.sink.pc) (lock : s.lock = some .source)
    (claimed : claims impl s.sink.pc = true) : impl = .tripleNoc ∧ s.sink.newest = s.source.memory .reading := by
  have away (holding : Holding s) : False := by
    rw [holding.1] at lock
    cases lock
  generalize s.sink.pc = pc at reader claimed
  cases reader with
  | idle _ | acquire _ _ => cases impl <;> cases claimed
  | takeNewest _ holding _ | sendReading _ _ holding _ _ _ | readingSent _ _ holding _ _ _ | readingArrived _ _ holding _ _ _
  | handOver _ _ holding _ _ _ | copyLocked _ _ holding _ _ | release _ _ holding _ _ => exact (away holding).elim
  | copyOutside triple _ _ _ reading => exact ⟨triple,reading.symm⟩

theorem wrap_lt (next : Nat) : wrap next < 3 := by
  unfold wrap
  split <;> omega

theorem wrap_ne (small : now < 3) : wrap now ≠ now ∧ wrap (wrap now) ≠ now ∧ wrap (wrap now) ≠ wrap now := by
  unfold wrap
  split <;> split <;> omega

theorem bit_cases (small : now < 2) : now = 0 ∨ now = 1 := by omega

theorem advance_lt (impl : Impl) (small : now < impl.buffers) (reading : Nat) :
    impl.advance now reading < impl.buffers := by
  cases impl with
  | doubleNoc =>
    change now ^^^ 1 < 2
    rcases bit_cases small with rfl | rfl <;> decide
  | tripleNoc =>
    change (if wrap now = reading then wrap (wrap now) else wrap now) < 3
    split <;> exact wrap_lt _

theorem advance_ne (impl : Impl) (small : now < impl.buffers) (reading : Nat) : impl.advance now reading ≠ now := by
  cases impl with
  | doubleNoc =>
    change now ^^^ 1 ≠ now
    rcases bit_cases small with rfl | rfl <;> decide
  | tripleNoc =>
    obtain ⟨one,second,-⟩ := wrap_ne small
    change (if wrap now = reading then wrap (wrap now) else wrap now) ≠ now
    split
    · exact second
    · exact one

theorem advance_avoids (small : now < 3) (reading : Nat) : Impl.tripleNoc.advance now reading ≠ reading := by
  change (if wrap now = reading then wrap (wrap now) else wrap now) ≠ reading
  split
  · rename_i same
    rw [← same]
    exact (wrap_ne small).2.2
  · assumption

theorem source_kept (source : Source) (lock : Option Side) (completed : Nat)
    (reading : source.memory .reading = s.source.memory .reading) (held : s.lock = some .sink → lock = some .sink) :
    SinkKept impl words s {s with source := source,lock := lock,completed := completed} where
  sink := rfl
  written := id
  filled _ := id
  held sink := ⟨held sink,rfl,rfl⟩
  published := Nat.le_refl _
  acquired := rfl
  settled := rfl
  reading := reading

def received (s : State) (word : SinkWord × Nat) : State :=
  {s with
    source := {s.source with dma := s.source.dma.deliver}
    sink := {s.sink with memory := update s.sink.memory word.1 word.2}
    published := if word.1 = .newest then s.published+1 else s.published}

section
variable (valid : Valid impl words s)
include valid

theorem source_run : Valid impl words (runSource impl words s) := by
  have writer := valid.writer
  have stays (source : Source) (lock : Option Side) (memory : source.memory = s.source.memory)
      (held : s.lock = some .sink → lock = some .sink)
      (stage : Writer impl words {s with source := source,lock := lock} source.pc) :
      Valid impl words {s with source := source,lock := lock} :=
    valid.sourceStep (source_kept source lock s.completed (by rw [memory]) held) stage valid.latest
      (by rw [memory]; exact valid.next) valid.completed rfl
  unfold runSource
  generalize here : s.source.pc = pc at writer
  cases writer with
  | idle none length free => exact valid
  | sendSample none called free =>
    simp only [if_pos ((Transfer.done_iff _).mpr none)]
    exact stays _ _ rfl id (.awaitSample (fun _ => rfl) Moves.start Landed.none called free)
  | awaitSample held moves landed called free =>
    simp only
    split
    case isTrue done =>
      obtain ⟨none,all⟩ := moves.finished done
      subst all
      refine stays _ _ rfl id (.acquire none ⟨called.1,?_⟩ free)
      refine called.2.congr fun i inside => ?_
      rw [← held i]
      exact landed (.sample i,.buffer _ i) (mem_map_of_mem (mem_range.mpr inside))
    case isFalse => exact valid
  | acquire none stored free =>
    simp only
    split
    case isTrue open_ => exact stays _ _ rfl (fun held => by rw [open_] at held; cases held) (.sendNewest none stored free rfl)
    case isFalse => exact valid
  | sendNewest none stored free lock =>
    simp only [if_pos ((Transfer.done_iff _).mpr none)]
    exact stays _ _ rfl id (.newestSent (.waiting rfl) stored free lock)
  | newestSent carries stored free lock =>
    simp only [carries.not_done]
    exact valid
  | newestArrived none published lock =>
    simp only [if_pos ((Transfer.done_iff _).mpr none)]
    have outside := claimed_outside valid.reader lock
    refine stays _ _ rfl id ?_
    cases impl with
    | doubleNoc =>
      refine .release none published (fun claimed => ?_) lock
      cases (outside claimed).1
    | tripleNoc => exact .takeReading rfl none published lock
  | takeReading triple none published lock =>
    have outside := claimed_outside valid.reader lock
    exact stays _ _ rfl id (.release none published (fun claimed => .inr (outside claimed)) lock)
  | release none published known lock =>
    exact stays _ _ rfl (fun held => by rw [lock] at held; cases held) (.move none published known)
  | move none published known =>
    have moved : impl.advance (s.source.memory .next) s.source.reading ≠ s.source.memory .next :=
      advance_ne impl valid.next _
    refine valid.sourceStep (source_kept _ _ _ (by simp) id) ?_ valid.latest ?_ published.2.2 rfl
    · refine .idle none published.1 ⟨?_,fun claimed => ?_⟩
      · rw [published.2.1]
        exact moved
      · rcases known claimed with newest | ⟨triple,reading⟩
        · rw [newest,published.2.1]
          exact moved.symm
        · subst triple
          rw [reading]
          exact (advance_avoids valid.next _).symm
    · exact advance_lt impl valid.next _

theorem write_step (sample : Nat → Nat) :
    Valid impl words (apply impl words s (.write sample)) := by
  simp only [apply]
  split
  case isFalse => exact valid
  case isTrue here =>
    have writer := valid.writer
    rw [here] at writer
    cases writer with
    | idle none length free =>
      refine valid.sourceStep ⟨rfl,fun same => same.append sample,fun _ same => same.append sample,
        fun held => ⟨held,rfl,rfl⟩,Nat.le_refl _,rfl,rfl,rfl⟩ ?_ ?_ valid.next valid.completed rfl
      · refine .sendSample none ⟨?_,?_⟩ free
        · rw [length_append,length]
          rfl
        · rw [← length]
          exact matches_last s.written sample words
      · exact latest_kept valid.latest rfl rfl fun _ same => same.append sample

theorem fetch_source : Valid impl words (apply impl words s (.fetch .source)) := by
  have idle (none : s.source.dma = .none) : Valid impl words (apply impl words s (.fetch .source)) := by
    simp only [apply,(Transfer.rests s.source.memory none).1]
    exact valid
  have fetches := valid.sourceStep (source_kept {s.source with dma := s.source.dma.fetch s.source.memory} s.lock s.completed rfl id)
  have writer := valid.writer
  generalize here : s.source.pc = pc at writer
  cases writer with
  | awaitSample held moves landed called free =>
    refine fetches (here ▸ .awaitSample held (moves.fetch fun w member => ?_) landed called free) valid.latest valid.next
      valid.completed rfl
    obtain ⟨i,-,rfl⟩ := mem_map.mp member
    exact (held i).symm
  | newestSent carries stored free lock =>
    exact fetches (here ▸ .newestSent carries.fetch stored free lock) valid.latest valid.next valid.completed rfl
  | _ => exact idle ‹_›

theorem sample_arrives (here : s.source.pc = .awaitSample)
    (agree : ∀ i, held (.sample i) = s.source.memory (.sample i))
    (moves : Moves s.source.dma (sampleBlock words (s.source.memory .next)) landed held)
    (before : Landed s.sink.memory held landed) (called : Called words s) (free : Free impl s)
    (arrival : s.source.dma.arrival = some word) : Valid impl words (received s word) := by
  obtain ⟨origin,value,member,after⟩ := moves.arrives arrival
  obtain ⟨i,-,same⟩ := mem_map.mp member
  obtain ⟨target,content⟩ := word
  cases same
  cases value
  have elsewhere (index : Nat) (other : index ≠ s.source.memory .next) (k : Nat) (filled : Filled words s index k) :
      Filled words (received s (.buffer (s.source.memory .next) i,held (.sample i))) index k := by
    refine filled.congr fun j _ => update_of_ne ?_ _ _
    intro clash
    cases clash
    exact other rfl
  have newest : (received s (.buffer (s.source.memory .next) i,held (.sample i))).sink.memory .newest =
      s.sink.memory .newest := by simp [received]
  refine valid.sourceStep ⟨rfl,id,fun claimed => elsewhere _ (free.2 claimed) _,fun lock => ⟨lock,rfl,newest⟩,
    Nat.le_refl _,rfl,rfl,rfl⟩ ?_ ?_ valid.next valid.completed rfl
  · simp only [received,here]
    refine .awaitSample agree after (before.receive fun w old clash => ?_) called ⟨newest ▸ free.1,free.2⟩
    obtain ⟨j,-,rfl⟩ := mem_map.mp (moves.landed_mem old)
    cases clash
    rfl
  · exact latest_kept valid.latest newest rfl (elsewhere _ free.1.symm)

theorem newest_arrives (here : s.source.pc = .awaitNewest)
    (carries : Carries s.source.dma .next .newest (s.source.memory .next)) (stored : Stored words s)
    (lock : s.lock = some .source) (arrival : s.source.dma.arrival = some word) : Valid impl words (received s word) := by
  obtain ⟨rfl,none⟩ := carries.arrives arrival
  have kept (index k : Nat) (filled : Filled words s index k) :
      Filled words (received s (.newest,s.source.memory .next)) index k :=
    filled.congr fun i _ => by simp [received]
  have newest : (received s (.newest,s.source.memory .next)).sink.memory .newest = s.source.memory .next :=
    by simp [received]
  refine valid.sourceStep ⟨rfl,id,fun _ => kept _ _,fun held => ?_,Nat.le_succ _,rfl,rfl,rfl⟩ ?_ ?_ valid.next
    (Nat.le_succ_of_le valid.completed) rfl
  · rw [lock] at held
    cases held
  · change Writer impl words _ s.source.pc
    rw [here]
    exact .newestArrived none ⟨stored.1,newest,Nat.lt_succ_of_le valid.completed⟩ lock
  · refine (if_neg (Nat.succ_ne_zero s.published)).mpr ?_
    exact ⟨valid.next,kept _ _ stored.2⟩

theorem deliver_source : Valid impl words (apply impl words s (.deliver .source)) := by
  cases arrival : s.source.dma.arrival with
  | none =>
    simp only [apply,arrival]
    exact valid
  | some word =>
    have received : apply impl words s (.deliver .source) = received s word := by
      simp only [apply,arrival,received]
    rw [received]
    have flying (none : s.source.dma = .none) : False := by
      rw [none] at arrival
      cases arrival
    have writer := valid.writer
    generalize here : s.source.pc = pc at writer
    cases writer with
    | awaitSample held moves landed called free => exact sample_arrives valid here held moves landed called free arrival
    | newestSent carries stored free lock => exact newest_arrives valid here carries stored lock arrival
    | _ => exact (flying ‹_›).elim
end

theorem sink_kept (sink : Sink) (lock : Option Side) (settled : Bool) (acquired : Nat) (reads : List Read)
    (memory : sink.memory = s.sink.memory) (held : s.lock = some .source → lock = some .source)
    (claim : claims impl sink.pc = true →
      claims impl s.sink.pc = true ∧ sink.newest = s.sink.newest ∨ sink.newest = s.sink.memory .newest) :
    SourceKept impl s {s with sink := sink,lock := lock,settled := settled,acquired := acquired,reads := reads} where
  source := rfl
  elsewhere _ := rfl
  memory := memory
  written := rfl
  published := rfl
  completed := rfl
  lock := held
  claim := claim

theorem Finished.add (finished : Finished words s.written s.acquired s.reads) (settled : Settled s) (copied : Copied words s) :
    Finished words s.written s.acquired (s.reads ++ [⟨s.settled,s.acquired,s.sink.sample⟩]) := by
  refine ⟨fun r member => ?_,fun r member => ?_,?_⟩
  · rcases mem_append.mp member with old | new
    · exact finished.whole r old
    · rw [mem_singleton.mp new]
      exact ⟨settled,fun some => copied (Nat.ne_of_gt some)⟩
  · rcases mem_append.mp member with old | new
    · exact finished.earlier r old
    · exact Nat.le_of_eq (congrArg Read.published (mem_singleton.mp new))
  · refine pairwise_append.mpr ⟨finished.ordered,pairwise_singleton _ _,fun r old later new => ?_⟩
    rw [mem_singleton.mp new]
    exact finished.earlier r old

theorem snapshot_copies (snapshot : Snapshot impl words s) (inside : s.sink.word < words) (elsewhere : Nat) :
    Snapshot impl words {s with sink := {s.sink with
      word := s.sink.word+1
      sample := update s.sink.sample s.sink.word (s.sink.load impl elsewhere)}} := by
  intro some
  obtain ⟨small,filled,copied⟩ := snapshot some
  refine ⟨small,filled,?_⟩
  simp only [Sink.load,if_pos small]
  exact copied.extend filled inside

theorem snapshot_ends (snapshot : Snapshot impl words s) (all : ¬s.sink.word < words) : Copied words s :=
  fun some => (snapshot some).2.2.weaken (Nat.le_of_not_lt all)

section
variable (valid : Valid impl words s)
include valid

theorem read_step : Valid impl words (apply impl words s .read) := by
  simp only [apply]
  split
  case isFalse => exact valid
  case isTrue here =>
    have reader := valid.reader
    rw [here] at reader
    cases reader with
    | idle free =>
      refine valid.sinkStep (sink_kept _ _ _ _ _ rfl id fun claimed => ?_) (.acquire free fun begun => ?_) valid.acquired
        valid.finished
      · cases impl <;> cases claimed
      · exact Nat.lt_of_lt_of_le (of_decide_eq_true begun) valid.completed

theorem snapshot_begins (acquired : s.acquired = s.published) (pc : ReadPc) :
    Snapshot impl words {s with sink := {s.sink with pc := pc,newest := s.sink.memory .newest,word := 0}} := by
  intro some
  obtain ⟨small,filled⟩ := (if_neg (acquired ▸ some)).mp valid.latest
  rw [← acquired] at filled
  exact ⟨small,filled,(filled.weaken (Nat.zero_le words)).congr (by simp)⟩

theorem sink_run (elsewhere : Nat) : Valid impl words (runSink impl words elsewhere s) := by
  have reader := valid.reader
  have away (holding : Holding s) (lock : s.lock = some .source) : (none : Option Side) = some .source := by
    rw [holding.1] at lock
    cases lock
  have stays (sink : Sink) (memory : sink.memory = s.sink.memory) (claim : claims impl sink.pc = true →
        claims impl s.sink.pc = true ∧ sink.newest = s.sink.newest ∨ sink.newest = s.sink.memory .newest)
      (stage : Reader impl words {s with sink := sink} sink.pc) : Valid impl words {s with sink := sink} :=
    valid.sinkStep (sink_kept sink s.lock s.settled s.acquired s.reads memory id claim) stage valid.acquired valid.finished
  unfold runSink
  generalize here : s.sink.pc = pc at reader
  cases reader with
  | idle free => exact valid
  | acquire free settled =>
    simp only
    split
    case isFalse => exact valid
    case isTrue open_ =>
      refine valid.sinkStep (sink_kept _ _ _ _ _ rfl (fun lock => ?_) fun claimed => ?_) ?_ (Nat.le_refl _) ?_
      · rw [open_] at lock
        cases lock
      · cases impl <;> cases claimed
      · exact .takeNewest free ⟨rfl,rfl⟩ settled
      · exact ⟨valid.finished.whole,fun r member => Nat.le_trans (valid.finished.earlier r member) valid.acquired,
          valid.finished.ordered⟩
  | takeNewest free holding settled =>
    refine stays _ rfl (fun _ => .inr rfl) ?_
    cases impl with
    | doubleNoc => exact .copyLocked rfl free holding settled (snapshot_begins valid holding.2 _)
    | tripleNoc => exact .sendReading rfl free holding settled (snapshot_begins valid holding.2 _) rfl
  | sendReading triple free holding settled snapshot newest =>
    simp only [if_pos ((Transfer.done_iff _).mpr free)]
    subst triple
    exact stays _ rfl (fun _ => .inl ⟨by rw [here]; rfl,rfl⟩)
      (.readingSent rfl (.waiting rfl) holding settled snapshot newest)
  | readingSent triple carries holding settled snapshot newest =>
    simp only [carries.not_done]
    exact valid
  | readingArrived triple free holding settled snapshot reading =>
    simp only [if_pos ((Transfer.done_iff _).mpr free)]
    subst triple
    exact stays _ rfl (fun _ => .inl ⟨by rw [here]; rfl,rfl⟩) (.handOver rfl free holding settled snapshot reading)
  | handOver triple free holding settled snapshot reading =>
    subst triple
    exact valid.sinkStep (sink_kept _ _ _ _ _ rfl (away holding) fun _ => .inl ⟨by rw [here]; rfl,rfl⟩)
      (.copyOutside rfl free settled snapshot reading) valid.acquired valid.finished
  | copyOutside triple free settled snapshot reading =>
    subst triple
    simp only
    split
    case isTrue inside =>
      refine stays _ rfl (fun _ => .inl ⟨by rw [here]; rfl,rfl⟩) ?_
      rw [here]
      exact .copyOutside rfl free settled (snapshot_copies snapshot inside elsewhere) reading
    case isFalse all =>
      exact valid.sinkStep (sink_kept _ _ _ _ _ rfl id nofun) (.idle free) valid.acquired
        (valid.finished.add settled (snapshot_ends snapshot all))
  | copyLocked double free holding settled snapshot =>
    subst double
    simp only
    split
    case isTrue inside =>
      refine stays _ rfl (fun _ => .inl ⟨by rw [here]; rfl,rfl⟩) ?_
      rw [here]
      exact .copyLocked rfl free holding settled (snapshot_copies snapshot inside elsewhere)
    case isFalse all =>
      exact stays _ rfl nofun (.release rfl free holding settled (snapshot_ends snapshot all))
  | release double free holding settled copied =>
    subst double
    exact valid.sinkStep (sink_kept _ _ _ _ _ rfl (away holding) nofun) (.idle free) valid.acquired
      (valid.finished.add settled copied)

theorem fetch_sink : Valid impl words (apply impl words s (.fetch .sink)) := by
  have idle (free : s.sink.dma = .none) : Valid impl words (apply impl words s (.fetch .sink)) := by
    simp only [apply,(Transfer.rests s.sink.memory free).1]
    exact valid
  have reader := valid.reader
  generalize here : s.sink.pc = pc at reader
  cases reader with
  | readingSent triple carries holding settled snapshot newest =>
    have fetched : Carries (s.sink.dma.fetch s.sink.memory) .newest .reading s.sink.newest := by
      rw [← newest] at carries ⊢
      exact carries.fetch
    exact valid.sinkStep (sink_kept _ s.lock s.settled s.acquired s.reads rfl id fun claimed => .inl ⟨claimed,rfl⟩)
      (here ▸ .readingSent triple fetched holding settled snapshot newest) valid.acquired valid.finished
  | _ => exact idle ‹_›

theorem deliver_sink : Valid impl words (apply impl words s (.deliver .sink)) := by
  cases arrival : s.sink.dma.arrival with
  | none =>
    simp only [apply,arrival]
    exact valid
  | some word =>
    simp only [apply,arrival]
    have flying (free : s.sink.dma = .none) : False := by
      rw [free] at arrival
      cases arrival
    have reader := valid.reader
    generalize here : s.sink.pc = pc at reader
    cases reader with
    | readingSent triple carries holding settled snapshot newest =>
      obtain ⟨rfl,free⟩ := carries.arrives arrival
      refine valid.sinkStep ⟨rfl,fun other => update_of_ne other _ _,rfl,rfl,rfl,rfl,id,
        fun claimed => .inl ⟨by rw [here]; exact claimed,rfl⟩⟩ ?_ valid.acquired valid.finished
      exact .readingArrived triple free holding settled snapshot (by simp)
    | _ => exact (flying ‹_›).elim
end

theorem valid_start (begun : initial s) : Valid impl words s := by
  have small : 0 < impl.buffers := by cases impl <;> exact Nat.succ_pos _
  obtain ⟨⟨_,_,_,_⟩,⟨_,_,_,_,_,_⟩,_,_,_,_,_,_,_⟩ := s
  obtain ⟨rfl,next,rfl,rfl,newest,rfl,-,rfl,rfl,rfl,rfl,rfl⟩ := begun
  refine ⟨.idle rfl rfl ⟨?_,fun claimed => ?_⟩,.idle rfl,newest,next ▸ small,Nat.le_refl _,Nat.le_refl _,nofun,nofun,.nil⟩
  · rw [next,newest]
    decide
  · cases impl <;> cases claimed

theorem valid_step (valid : Valid impl words s) (action : Action) : Valid impl words (apply impl words s action) := by
  cases action with
  | write sample => exact write_step valid sample
  | runSource => exact source_run valid
  | read => exact read_step valid
  | runSink elsewhere => exact sink_run valid elsewhere
  | fetch side =>
    cases side with
    | source => exact fetch_source valid
    | sink => exact fetch_sink valid
  | deliver side =>
    cases side with
    | source => exact deliver_source valid
    | sink => exact deliver_sink valid

theorem reached_valid (path : Reached (system impl words) s) : Valid impl words s :=
  path.invariant (fun _ begun => valid_start begun) (fun _ action valid _ => valid_step valid action)
end Steps

-- Every finished read has the sample that was the last one published when it took the lock, and later reads took it
-- later.
theorem sampling_ports_whole {s : State} (path : Reached (system impl words) s) :
    (∀ r ∈ s.reads, (r.settled = true → 0 < r.published) ∧
      (0 < r.published → Matches s.written (r.published-1) words r.sample)) ∧
    s.reads.Pairwise fun r later => r.published ≤ later.published := by
  have finished := (reached_valid path).finished
  exact ⟨finished.whole,finished.ordered⟩

def created : State where
  source := ⟨.idle,fun word => if word = .reading then unset else 0,0,.none⟩
  sink := ⟨.idle,fun word => if word = .newest then unset else 0,0,0,fun _ => 0,.none⟩
  lock := none
  written := []
  published := 0
  completed := 0
  settled := false
  acquired := 0
  reads := []

theorem created_reached (impl : Impl) (words : Nat) : Reached (system impl words) created :=
  .start ⟨rfl,rfl,rfl,rfl,rfl,rfl,rfl,rfl,rfl,rfl,rfl,rfl⟩

instance (impl : Impl) (words : Nat) (s : State) (action : Action) : Decidable ((system impl words).admits s action) :=
  inferInstanceAs (Decidable True)

def publishes (sample : Nat → Nat) : List Action :=
  [.write sample,.runSource,.fetch .source,.fetch .source,.deliver .source,.deliver .source,.runSource,.runSource,.runSource,
    .fetch .source,.deliver .source]

-- The second sample is written and published while the sink copies the first one out of the other buffer.
def overlapped : List Action :=
  publishes (fun i => 10+i) ++ [.runSource,.runSource,.runSource,.runSource] ++
    [.read,.runSink 0,.runSink 0,.runSink 0,.fetch .sink,.deliver .sink,.runSink 0,.runSink 0,.runSink 0] ++
    publishes (fun i => 20+i) ++ [.runSink 0,.runSink 0]

theorem sampling_ports_whole_overlapped :
    let s := (system .tripleNoc 2).run created overlapped
    (s.published = 2 ∧ s.reads.map (fun r => (r.settled,r.published,r.sample 0,r.sample 1)) = [(true,1,10,11)]) ∧
    (∀ r ∈ s.reads, (r.settled = true → 0 < r.published) ∧
      (0 < r.published → Matches s.written (r.published-1) 2 r.sample)) ∧
    s.reads.Pairwise fun r later => r.published ≤ later.published :=
  ⟨by decide +kernel,sampling_ports_whole ((created_reached .tripleNoc 2).run overlapped (by decide +kernel))⟩
end Patmos.SamplingPort

namespace Patmos.DoubleNocWr
open Transition

-- The words that the two ports exchange, and the buffers that have been copied from or sent to.
structure Ports where
  newest : BitVec 32
  reading : BitVec 32
  used : List (BitVec 32)

inductive Call where
  | mpRead
  | mpWrite

-- The lock makes each critical section one step. What it sends has arrived at its end, and mp_read copies behind it
-- from the buffer it has taken inside.
def Ports.next (s : Ports) : Call → Ports
  | .mpRead => {s with reading := s.newest,used := s.newest :: s.used}
  | .mpWrite => {s with newest := s.reading ^^^ 1,used := (s.reading ^^^ 1) :: s.used}

def system : System Ports Call where
  start s := s = ⟨-1,1,[]⟩
  admits _ _ := True
  next s call := s.next call

def Small (index : BitVec 32) : Prop := index = 0 ∨ index = 1

def Inside (m : System Ports Call) : Prop := ∀ s,Reached m s → ∀ index ∈ s.used,Small index

-- A sample has been announced before the first read.
def Announced (s : Ports) (call : Call) : Prop := call = .mpRead → s.newest ≠ -1

structure Valid (s : Ports) : Prop where
  newest : s.newest = -1 ∨ Small s.newest
  reading : Small s.reading
  used : ∀ index ∈ s.used,Small index

theorem valid_next (valid : Valid s) (announced : Announced s call) : Valid (s.next call) := by
  obtain ⟨newest,reading,used⟩ := valid
  cases call with
  | mpRead =>
    have small := newest.resolve_left (announced rfl)
    exact ⟨newest,small,List.forall_mem_cons.mpr ⟨small,used⟩⟩
  | mpWrite =>
    have small : Small (s.reading ^^^ 1) := by
      rcases reading with first | second
      · exact .inr (by rw [first]; rfl)
      · exact .inl (by rw [second]; rfl)
    exact ⟨.inr small,reading,List.forall_mem_cons.mpr ⟨small,used⟩⟩

theorem indices_inside (path : Reached (system.restrict Announced) s) : ∀ index ∈ s.used,Small index := by
  have valid : Valid s := by
    refine path.invariant (fun s begun => ?_) fun s call valid admitted => valid_next valid admitted.2
    subst begun
    exact ⟨.inl rfl,.inr rfl,nofun⟩
  exact valid.used

theorem indices_inside_read : 0 ∈ ((system.restrict Announced).run ⟨-1,1,[]⟩ [.mpWrite,.mpRead]).used ∧ Small 0 :=
  ⟨by decide,indices_inside
    ((Reached.start rfl).run [.mpWrite,.mpRead] ⟨⟨trivial,nofun⟩,⟨trivial,fun _ => by decide⟩,trivial⟩) 0 (by decide)⟩

-- The write after it goes to the buffer 2^32-2.
theorem early_read_outside : ¬Inside system := by
  intro inside
  have path := (Reached.start (m := system) rfl).run [.mpRead,.mpWrite] ⟨trivial,trivial,trivial⟩
  rcases inside _ path (-2) (by decide) with wrong | wrong
  · exact absurd wrong (by decide)
  · exact absurd wrong (by decide)
end Patmos.DoubleNocWr
