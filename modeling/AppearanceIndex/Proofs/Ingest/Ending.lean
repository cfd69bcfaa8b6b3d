import AppearanceIndex.Proofs.Index.Listing
import AppearanceIndex.Proofs.Ingest.Opened

/-!
# How an ingest ends

A consumer that stays takes whole chunks out, in the order of the listing. Either all of them are
complete, or one fails: then come full batches of that chunk, its failure, and nothing more. No
chunk behind it is opened, and the only line in the log is its own (`Ingest.EndsAs`). Every ingest
whose consumer stays can be taken to such an end, and nothing happens after it.
-/

namespace AppearanceIndex.Ingest

/-- The producer has ended, and a consumer that stayed has taken everything out. -/
structure Over (t : Ingest) : Prop where
  stayed : t.abandoned = false
  empty : t.queue = []
  ended : t.producer = .ended

/-- What an ingest has delivered and which chunks it has opened in the end, and the files then. -/
inductive EndsAs (s : Ingest) : List Delivery → List ChunkEntry → FileStore → Prop where
  /-- There is no listing. -/
  | unlisted {f : Failure}
      (h : (Activity.listChunks s.directory.text).around
        (ChunkEntry.list s.files s.directory s.settings.window) = .error f) :
      EndsAs s [.failure f] [] s.files
  | complete {done : List (ChunkEntry × List AppearanceBatch)}
      (listed : ChunkEntry.list s.files s.directory s.settings.window = .ok (done.map Prod.fst))
      (whole : ∀ entry ∈ done, s.Whole entry.1 entry.2) :
      EndsAs s (deliveriesOf done) (done.map Prod.fst) s.files
  /-- One chunk fails behind complete ones. The failure is its own, or that of its line. -/
  | failed {done : List (ChunkEntry × List AppearanceBatch)} {bad : ChunkEntry}
      {left : List ChunkEntry} {batches : List AppearanceBatch} {f g : Failure} {files : FileStore}
      (listed : ChunkEntry.list s.files s.directory s.settings.window =
        .ok (done.map Prod.fst ++ bad :: left))
      (whole : ∀ entry ∈ done, s.Whole entry.1 entry.2)
      (unsound : ∀ bs, ¬ bad.Sound s.files bs) (part : s.Part bad batches)
      (fails : s.Fails bad batches f) (told : (s.recordFailure bad f).producer = .failing g)
      (recorded : s.Recorded bad.name files) :
      EndsAs s (deliveriesOf done ++ asDeliveries batches ++ [.failure g])
        (done.map Prod.fst ++ [bad]) files

variable {s t u : Ingest} {events : List Event} {produced : List Delivery}

/-- An ingest that has nothing left to do is over. -/
theorem over_of_measure (ha : t.abandoned = false) (hm : t.measure = (0, 0, 0)) : t.Over := by
  simp only [measure, Prod.mk.injEq, Nat.add_eq_zero_iff, List.length_eq_zero_iff] at hm
  obtain ⟨hstage, hleft, hweight, hq⟩ := hm
  refine ⟨ha, hq, ?_⟩
  cases hp : t.producer with
  | ended => rfl
  | listing =>
    rw [hp] at hstage
    cases hstage
  | between | decoding | sending | completing =>
    rw [hp] at hleft
    cases hleft
  | recording | failing =>
    rw [hp] at hweight
    cases hweight

theorem Completed.whole {done : List (ChunkEntry × List AppearanceBatch)} {left : List ChunkEntry}
    (h : s.Completed done left) : ∀ entry ∈ done, s.Whole entry.1 entry.2 :=
  fun entry hmem => (h.complete entry hmem).whole

theorem Completed.passes {done : List (ChunkEntry × List AppearanceBatch)}
    {left : List ChunkEntry} (h : s.Completed done left) : s.Passes (done.map Prod.fst) left where
  listed := h.listed
  sound := by
    intro chunk hmem
    obtain ⟨entry, hentry, rfl⟩ := List.mem_map.mp hmem
    obtain ⟨bs, -, hsound, -⟩ := h.whole entry hentry
    exact ⟨bs, hsound⟩

/-- A listing of which every chunk is sound is not one with a chunk that is not. -/
theorem Passes.not_stopped {all passed left : List ChunkEntry} {chunk : ChunkEntry}
    (h : s.Passes all []) (h' : s.Passes passed (chunk :: left)) :
    ∃ bs, chunk.Sound s.files bs := by
  have hlisted := h.listed.symm.trans h'.listed
  rw [Except.ok.injEq, List.append_nil] at hlisted
  exact h.sound chunk (by simp [hlisted])

/-- What was produced and what was opened belong together. -/
theorem endsAs_of_produced (hp : s.settings.Possible) {opened : List ChunkEntry}
    {files : FileStore} (h : s.Produced produced .ended) (ho : s.Opens opened files .ended) :
    s.EndsAs produced opened files := by
  have hunlisted : ∀ {passed left f}, s.Passes passed left →
      (Activity.listChunks s.directory.text).around
        (ChunkEntry.list s.files s.directory s.settings.window) ≠ .error f := by
    intro passed left f hpasses
    rw [hpasses.listed]
    exact fun hn => nomatch hn
  cases h with
  | @failed produced g hfailing =>
    cases hfailing with
    | unlisted hnone =>
      cases ho with
      | unlisted => exact .unlisted hnone
      | stopped hpasses | finished hpasses => exact absurd hnone (hunlisted hpasses)
    | @failing done left bad batches f _ hdone hfails htold =>
      have hbad : ∀ bs, ¬ bad.Sound s.files bs := fun bs hs => not_fails hp hs hfails
      cases ho with
      | unlisted hnone => exact absurd hnone (hunlisted hdone.passes)
      | stopped hpasses hbad' hrecorded =>
        obtain ⟨rfl, rfl, rfl⟩ := hpasses.unique hbad' hdone.passes hbad
        exact .failed hdone.listed hdone.whole hbad hfails.part hfails htold hrecorded
      | finished hpasses =>
        obtain ⟨bs, hs⟩ := hpasses.not_stopped hdone.passes
        exact absurd hs (hbad bs)
  | aborted _ habort => exact absurd habort (start_ne_aborted hp _)
  | @ended done hdone =>
    cases ho with
    | unlisted hnone => exact absurd hnone (hunlisted hdone.passes)
    | stopped hpasses hbad =>
      obtain ⟨bs, hs⟩ := hdone.passes.not_stopped hpasses
      exact absurd hs (hbad bs)
    | finished hpasses =>
      have hsame := hpasses.listed.symm.trans hdone.listed
      rw [Except.ok.injEq, List.append_nil, List.append_nil] at hsame
      subst hsame
      exact .complete (by simpa using hdone.listed) hdone.whole

/-- In an ingest that has ended, the consumer can leave and nothing else can happen. -/
theorem Transition.after_end {move : IngestMove} {delivery : Option Delivery}
    (h : t.Transition move delivery u) (hp : t.producer = .ended) (hq : t.queue = []) :
    delivery = none ∧ u.producer = .ended ∧ u.queue = [] ∧ u.files = t.files := by
  cases h with
  | list hl | next hl | receive _ hl | record hl | decode _ hl | decodeOn _ hl =>
    rw [hp] at hl
    cases hl
  | send hl =>
    rw [hp] at hl
    cases hl
  | giveUp => exact ⟨rfl, rfl, hq, rfl⟩
  | take _ hl =>
    rw [hq] at hl
    cases hl
  | abandon => exact ⟨rfl, hp, rfl, rfl⟩

/-- Nothing is delivered, opened or written after the end. -/
theorem Over.silent (h : t.Over) {more : List Event} (ht : Trail Ingest.step t more u) :
    Trail.outputs more = [] ∧ openedChunks more = [] ∧ u.files = t.files := by
  have hall : u.producer = .ended ∧ u.queue = [] ∧ Trail.outputs more = [] ∧
      openedChunks more = [] ∧ u.files = t.files := by
    induction ht with
    | start => exact ⟨h.ended, h.empty, rfl, rfl, rfl⟩
    | @step events v w move delivery _ hs ih =>
      obtain ⟨hp, hq, houtputs, hopened, hfiles⟩ := ih
      obtain ⟨rfl, hended, hempty, hsame⟩ := (transition_of_step hs).after_end hp hq
      have hnone : Event.opened? ⟨v, move, none, w⟩ = none := by
        refine opened?_eq_none fun chunks hbetween => ?_
        rw [hp] at hbetween
        cases hbetween
      exact ⟨hended, hempty, by simp [houtputs], by simp [hopened, hnone], hsame.trans hfiles⟩
  exact hall.2.2

section New

variable {settings : IngestSettings} {directory : Path} {log : Option StatusLog}
  {files : FileStore}

/-- Whatever happened as long as the consumer stays, the ingest can be taken to its end, and at the
end it has delivered, opened and recorded what it should. -/
theorem endsAs_of_trail (hp : settings.Possible)
    (h : Trail Ingest.step (new settings directory log files) events t)
    (ha : t.abandoned = false) :
    (∃ more u, Trail Ingest.step t more u ∧ u.Over) ∧
      (t.Over →
        (new settings directory log files).EndsAs (Trail.outputs events) (openedChunks events)
          t.files ∧
        ∀ more u, Trail Ingest.step t more u →
          Trail.outputs more = [] ∧ openedChunks more = [] ∧ u.files = t.files) := by
  have hcourse := course_of_trail h
  constructor
  · obtain ⟨_, u, hrest, hau, hq, hended⟩ := hcourse.rest_delivers ha
    obtain ⟨more, htrail, -⟩ := exists_trail_of_course hrest
    exact ⟨more, u, htrail, hau, hq, hended⟩
  · intro hover
    have hproduced := hcourse.traced.produced ha
    have hopens := opens_of_trail hp h ha
    rw [hover.empty, hover.ended, List.append_nil] at hproduced
    rw [hover.ended] at hopens
    exact ⟨endsAs_of_produced hp hproduced hopens, fun _ _ => hover.silent⟩

end New

/-! ## Behind the listing -/

def listedAs (s : Ingest) (chunks : List ChunkEntry) : Ingest :=
  { s with producer := .between chunks }

theorem produce_of_list {settings : IngestSettings} {directory : Path} {files : FileStore}
    {chunks : List ChunkEntry} (log : Option StatusLog)
    (h : ChunkEntry.list files directory settings.window = .ok chunks) :
    (new settings directory log files).produce =
      some ((new settings directory log files).listedAs chunks) := by
  show some (new settings directory log files).listChunks = _
  unfold listChunks
  rw [show ChunkEntry.list (new settings directory log files).files
    (new settings directory log files).directory
    (new settings directory log files).settings.window = .ok chunks from h]
  rfl

/-- An ingest that lists chunks goes on from the listing. -/
theorem trail_of_list {settings : IngestSettings} {directory : Path} {files : FileStore}
    {chunks : List ChunkEntry} (log : Option StatusLog)
    (h : ChunkEntry.list files directory settings.window = .ok chunks) (moves : List IngestMove) :
    let run := Trail.follow Ingest.step ((new settings directory log files).listedAs chunks) moves
    ∃ events, Trail Ingest.step (new settings directory log files) events run.2 ∧
      Trail.outputs events = Trail.outputs run.1 := by
  have hlist : (new settings directory log files).step .produce =
      some (none, (new settings directory log files).listedAs chunks) := by
    simp only [step, produce_of_list log h, Option.map_some]
  exact ⟨_, (Trail.start.step hlist).trans (Trail.trail_follow Ingest.step _ moves), rfl⟩

/-! ## A directory with a bad chunk -/

def tableBytes (records : List AddressRecord) (apps : List Appearance) : Bytes :=
  ChunkHeader.toBytes ⟨ChunkHeader.chunkMagic, Vector.replicate 32 0, .ofNat records.length,
    .ofNat apps.length⟩ ++ records.flatMap AddressRecord.toBytes ++ apps.flatMap Appearance.toBytes

def sampleEntry (stem : String) (range : BlockRange) : ChunkEntry :=
  ⟨⟨"/chunks/" ++ stem ++ ".bin"⟩, stem, range⟩

def sampleEntries : List ChunkEntry :=
  [sampleEntry "000000020-000000029" ⟨20, 29⟩, sampleEntry "000000010-000000019" ⟨10, 19⟩,
    sampleEntry "000000000-000000009" ⟨0, 9⟩]

/-- The second span of the second chunk is too long. -/
def sampleFiles : FileStore where
  workingPlace := []
  nodes :=
    [(["chunks"], .directory), (["status"], .file []),
      (["chunks", "000000020-000000029.bin"], .file (tableBytes [⟨.ofNat 2, 0, 1⟩] [⟨21, 7⟩])),
      (["chunks", "000000010-000000019.bin"],
        .file (tableBytes [⟨.ofNat 1, 0, 1⟩, ⟨.ofNat 2, 1, 9⟩] [⟨12, 5⟩, ⟨14, 0⟩])),
      (["chunks", "000000000-000000009.bin"], .file (tableBytes [⟨.ofNat 1, 0, 1⟩] [⟨3, 0⟩]))]

theorem list_sampleFiles :
    ChunkEntry.list sampleFiles ⟨"/chunks"⟩ ⟨none, none⟩ = .ok sampleEntries :=
  ChunkEntry.list_of_sorted (by decide +kernel) (by decide)

/-- One worker, and one appearance in a batch. -/
def oneByOne : IngestSettings :=
  ⟨⟨1, Nat.one_pos⟩, ⟨1, Nat.one_pos⟩, ⟨1, Nat.one_pos⟩, ⟨none, none⟩⟩

def sampleIngest : Ingest := new oneByOne ⟨"/chunks"⟩ (some ⟨["status"]⟩) sampleFiles

def sampleMoves : List IngestMove :=
  (List.replicate 25 [.decode (.work 0), .produce, .decode .close, .receive]).flatten

theorem endsAs_of_long_span :
    ∃ events t, Trail Ingest.step sampleIngest events t ∧ t.Over ∧
      openedChunks events = sampleEntries.take 2 ∧
      sampleIngest.EndsAs (Trail.outputs events) (sampleEntries.take 2) t.files := by
  have hlist : sampleIngest.step .produce =
      some (none, { sampleIngest with producer := .between sampleEntries }) := by
    show some (none, sampleIngest.listChunks) = _
    unfold listChunks
    rw [show ChunkEntry.list sampleIngest.files sampleIngest.directory
      sampleIngest.settings.window = .ok sampleEntries from list_sampleFiles]
    rfl
  generalize hbegun : { sampleIngest with producer := .between sampleEntries } = begun at hlist
  have htrail := (Trail.start.step hlist).trans (Trail.trail_follow Ingest.step begun sampleMoves)
  have hrun : let run := Trail.follow Ingest.step begun sampleMoves
      (run.2.abandoned = false ∧ run.2.measure = (0, 0, 0)) ∧
        openedChunks run.1 = sampleEntries.take 2 := by
    rw [← hbegun]
    decide +kernel
  obtain ⟨⟨ha, hmeasure⟩, hopened⟩ := hrun
  have hover := over_of_measure ha hmeasure
  have hends := ((endsAs_of_trail ⟨by decide, by decide⟩ htrail ha).2 hover).1
  have hfirst : openedChunks ([] ++ [⟨sampleIngest, .produce, none, begun⟩] ++
      (Trail.follow Ingest.step begun sampleMoves).1) = sampleEntries.take 2 := by
    rw [openedChunks_append, hopened]
    rfl
  rw [hfirst] at hends
  exact ⟨_, _, htrail, hover, hfirst, hends⟩

end AppearanceIndex.Ingest
