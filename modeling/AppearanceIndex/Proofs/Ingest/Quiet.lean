import AppearanceIndex.Proofs.Index.Listing
import AppearanceIndex.Proofs.Ingest.Ending

/-!
# Ingests that end quietly

An ingest ends quietly when its consumer has taken everything out and there was no failure in it.
With sizes that are possible, every chunk is complete then (`Ingest.Quiet.complete`). With sizes
that are not, nothing was delivered: the first chunk that opens aborts the production, and no one is
told (`Ingest.Quiet.aborted`).
-/

namespace AppearanceIndex.Ingest

/-- What an ingest has delivered that ended without a failure. -/
inductive Quiet (s : Ingest) : List Delivery → Prop where
  | complete {done : List (ChunkEntry × List AppearanceBatch)} (h : s.Completed done []) :
      Quiet s (deliveriesOf done)
  | aborted {chunk : ChunkEntry} {left : List ChunkEntry} (h : s.Completed [] (chunk :: left))
      (hp : ¬ s.settings.Possible)
      (ha : ChunkInProgress.start s.settings s.files chunk = .aborted) : Quiet s []

variable {s t : Ingest} {chunk : ChunkEntry} {batches : List AppearanceBatch}
  {deliveries : List Delivery} {events : List Event}

/-- Only with sizes that are possible a decode starts. -/
theorem possible_of_started {stream : DecodeStream}
    (h : ChunkInProgress.start s.settings s.files chunk = .started stream) :
    s.settings.Possible := by
  unfold ChunkInProgress.start at h
  split at h
  · cases h
  · next bs _ =>
    split at h
    · cases h
    · cases h
    · next stream hsource =>
      unfold DecodeStart.ofSource at hsource
      split at hsource
      · cases hsource
      · split at hsource
        · cases hsource
        · next hcapacity =>
          split at h
          · cases h
          · next hbatch => exact ⟨Nat.not_lt.mp hcapacity, Nat.not_lt.mp hbatch⟩

theorem Completes.possible (h : s.Completes chunk batches) : s.settings.Possible := by
  obtain ⟨_, ⟨first, _, _, hstart, -⟩, -⟩ := h
  exact possible_of_started hstart

theorem Completed.eq_nil {done : List (ChunkEntry × List AppearanceBatch)} {left : List ChunkEntry}
    (h : s.Completed done left) (hp : ¬ s.settings.Possible) : done = [] := by
  cases done with
  | nil => rfl
  | cons entry done => exact absurd (h.complete entry List.mem_cons_self).possible hp

/-- The producer that has ended without a failure has gone through the listing, or has died. -/
theorem quiet_of_produced (h : s.Produced deliveries .ended)
    (hq : ∀ f, .failure f ∉ deliveries) : s.Quiet deliveries := by
  cases h with
  | @failed produced f _ => exact absurd (by simp) (hq f)
  | @aborted done left chunk hdone ha =>
    have hp : ¬ s.settings.Possible := fun hp => start_ne_aborted hp chunk ha
    obtain rfl := hdone.eq_nil hp
    exact .aborted hdone hp ha
  | ended hdone => exact .complete hdone

theorem Completed.finishes {done : List (ChunkEntry × List AppearanceBatch)}
    {left : List ChunkEntry} (h : s.Completed done left) :
    Finishes (deliveriesOf done) (done.map Prod.fst) := by
  intro chunk hmem
  obtain ⟨entry, hentry, rfl⟩ := List.mem_map.mp hmem
  obtain ⟨items, -, full, last, heq, -, -, hname, hlast⟩ := h.complete entry hentry
  refine ⟨last, List.mem_flatMap.mpr ⟨entry, hentry, ?_⟩, hname, hlast⟩
  exact List.mem_map_of_mem (by simp [heq])

/-- A quiet end is a complete one just when the sizes are possible or there was nothing to do. -/
theorem Quiet.finishes_iff (h : s.Quiet deliveries) :
    ∃ chunks, ChunkEntry.list s.files s.directory s.settings.window = .ok chunks ∧
      (Finishes deliveries chunks ↔ s.settings.Possible ∨ chunks = []) := by
  cases h with
  | @complete done hdone =>
    refine ⟨done.map Prod.fst, by simpa using hdone.listed, ?_⟩
    refine iff_of_true hdone.finishes ?_
    by_cases hp : s.settings.Possible
    · exact .inl hp
    · exact .inr (by rw [hdone.eq_nil hp]; rfl)
  | @aborted chunk left hdone hp ha =>
    refine ⟨chunk :: left, by simpa using hdone.listed, iff_of_false ?_ (by simp [hp])⟩
    intro hall
    obtain ⟨batch, hmem, -⟩ := hall chunk List.mem_cons_self
    cases hmem

/-- With sizes that are not possible nothing is delivered, and the first chunk aborts. -/
theorem Quiet.of_impossible (h : s.Quiet deliveries) (hp : ¬ s.settings.Possible)
    {chunks : List ChunkEntry}
    (hlist : ChunkEntry.list s.files s.directory s.settings.window = .ok chunks) :
    deliveries = [] ∧
      ∀ chunk ∈ chunks.head?, ChunkInProgress.start s.settings s.files chunk = .aborted := by
  cases h with
  | complete hdone =>
    obtain rfl := hdone.eq_nil hp
    obtain rfl := hdone.chunks_eq hlist
    exact ⟨rfl, by simp⟩
  | aborted hdone _ ha =>
    obtain rfl := hdone.chunks_eq hlist
    exact ⟨rfl, by simpa using ha⟩

section New

variable {settings : IngestSettings} {directory : Path} {log : Option StatusLog}
  {files : FileStore}

/-- A consumer that came to the end and took no failure out has the last batch of every chunk just
when the sizes are possible or there is no chunk. If they are not possible, it has nothing. -/
theorem finishes_iff_of_quiet_end
    (h : Trail Ingest.step (new settings directory log files) events t) (ho : t.Over)
    (hq : ∀ f, .failure f ∉ Trail.outputs events) :
    ∃ chunks, ChunkEntry.list files directory settings.window = .ok chunks ∧
      (Finishes (Trail.outputs events) chunks ↔ settings.Possible ∨ chunks = []) ∧
      (¬ settings.Possible → Trail.outputs events = [] ∧
        ∀ chunk ∈ chunks.head?, ChunkInProgress.start settings files chunk = .aborted) := by
  have hproduced := (course_of_trail h).traced.produced ho.stayed
  rw [ho.empty, ho.ended, List.append_nil] at hproduced
  have hquiet := quiet_of_produced hproduced hq
  obtain ⟨chunks, hlist, hiff⟩ := hquiet.finishes_iff
  exact ⟨chunks, hlist, hiff, fun hp => hquiet.of_impossible hp hlist⟩

end New

/-! ## A sound chunk, and a batch without room -/

def newestOnly : IngestSettings := { oneByOne with window := ⟨some 20, none⟩ }

/-- Batches of more appearances than there can be room for. -/
def boundless : IngestSettings :=
  { oneByOne with batchSize := ⟨UInt64.size - 1, by decide⟩ }

theorem finishes_of_newest :
    ∃ events t, Trail Ingest.step (new newestOnly ⟨"/chunks"⟩ none sampleFiles) events t ∧
      t.Over ∧ (∀ f, .failure f ∉ Trail.outputs events) ∧
      Finishes (Trail.outputs events) (sampleEntries.take 1) := by
  have hlist : ChunkEntry.list sampleFiles ⟨"/chunks"⟩ newestOnly.window =
      .ok (sampleEntries.take 1) :=
    ChunkEntry.list_of_sorted (by decide +kernel) (by decide)
  obtain ⟨events, htrail, houtputs⟩ := trail_of_list none hlist sampleMoves
  generalize hstart : (new newestOnly ⟨"/chunks"⟩ none sampleFiles).listedAs
    (sampleEntries.take 1) = start at htrail houtputs
  have hrun : let run := Trail.follow Ingest.step start sampleMoves
      (run.2.abandoned = false ∧ run.2.measure = (0, 0, 0)) ∧
        (Trail.outputs run.1).all (fun | .batch _ => true | .failure _ => false) = true := by
    rw [← hstart]
    decide +kernel
  obtain ⟨⟨ha, hmeasure⟩, hbatches⟩ := hrun
  have hover := over_of_measure ha hmeasure
  have hquiet : ∀ f, .failure f ∉ Trail.outputs events := by
    intro f hmem
    rw [houtputs] at hmem
    cases List.all_eq_true.mp hbatches _ hmem
  obtain ⟨chunks, hchunks, hiff, -⟩ := finishes_iff_of_quiet_end htrail hover hquiet
  rw [hlist, Except.ok.injEq] at hchunks
  subst hchunks
  exact ⟨events, _, htrail, hover, hquiet, hiff.mpr (.inl ⟨by decide, by decide⟩)⟩

/-- The first chunk file opens, and there is no room for its first batch. -/
theorem not_finishes_of_boundless_batch :
    ¬ ∀ (settings : IngestSettings) (directory : Path) (log : Option StatusLog)
      (files : FileStore) (events : List Event) (t : Ingest),
      Trail Ingest.step (new settings directory log files) events t → t.Over →
      (∀ f, .failure f ∉ Trail.outputs events) →
      ∃ chunks, ChunkEntry.list files directory settings.window = .ok chunks ∧
        Finishes (Trail.outputs events) chunks := by
  intro hall
  have hsample : ChunkEntry.list sampleFiles ⟨"/chunks"⟩ boundless.window = .ok sampleEntries :=
    list_sampleFiles
  obtain ⟨events, htrail, houtputs⟩ := trail_of_list none hsample [.produce]
  generalize hstart : (new boundless ⟨"/chunks"⟩ none sampleFiles).listedAs sampleEntries = start
    at htrail houtputs
  have hrun : let run := Trail.follow Ingest.step start [.produce]
      (run.2.abandoned = false ∧ run.2.measure = (0, 0, 0)) ∧
        (Trail.outputs run.1).length = 0 := by
    rw [← hstart]
    decide +kernel
  obtain ⟨⟨ha, hmeasure⟩, hnone⟩ := hrun
  rw [List.length_eq_zero_iff] at hnone
  obtain ⟨chunks, hlist, hfinishes⟩ := hall _ _ _ _ _ _ htrail (over_of_measure ha hmeasure)
    (by simp [houtputs, hnone])
  rw [hsample, Except.ok.injEq] at hlist
  subst hlist
  obtain ⟨batch, hmem, -⟩ := hfinishes _ List.mem_cons_self
  rw [houtputs, hnone] at hmem
  cases hmem

end AppearanceIndex.Ingest
