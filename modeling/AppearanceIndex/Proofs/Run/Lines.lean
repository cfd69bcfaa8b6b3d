import AppearanceIndex.Proofs.Index.Listing
import AppearanceIndex.Proofs.Ingest.Ending
import AppearanceIndex.Proofs.Run.Course
import Mathlib.Data.List.Nodup

/-!
# How many lines a chunk gets

The batches of a run come chunk by chunk in the order of the listing, the last batch of a chunk
before the first of the next (`InTurn`). So a chunk whose last batch is in gets one line, and
whoever fails afterwards fails on a later chunk (`IngestRun.Accounted`). The one chunk for which
there can be two lines is one that cannot be decoded while an earlier batch of it is refused by the
sink: the producer and the writer do not know of each other.
-/

namespace AppearanceIndex

/-- Batches of the first of these chunks, one chunk after the other, and the chunks of which more
batches, or all, are still to come. -/
inductive InTurn : List String → List AppearanceBatch → List String → Prop where
  | nil {names : List String} : InTurn names [] names
  | more {name : String} {names rest : List String} {batch : AppearanceBatch}
      {batches : List AppearanceBatch} (hn : batch.chunkName = name)
      (hl : batch.lastInChunk = false) (h : InTurn (name :: names) batches rest) :
      InTurn (name :: names) (batch :: batches) rest
  | last {name : String} {names rest : List String} {batch : AppearanceBatch}
      {batches : List AppearanceBatch} (hn : batch.chunkName = name)
      (hl : batch.lastInChunk = true) (h : InTurn names batches rest) :
      InTurn (name :: names) (batch :: batches) rest

namespace InTurn

variable {name : String} {names rest : List String} {batch : AppearanceBatch}
  {batches : List AppearanceBatch}

theorem suffix (h : InTurn names batches rest) : rest <:+ names := by
  induction h with
  | nil => exact List.suffix_rfl
  | more _ _ _ ih => exact ih
  | last _ _ _ ih => exact ih.trans (List.suffix_cons _ _)

theorem snoc_more (h : InTurn names batches (name :: rest)) (hn : batch.chunkName = name)
    (hl : batch.lastInChunk = false) : InTurn names (batches ++ [batch]) (name :: rest) := by
  generalize hr : name :: rest = left at h ⊢
  induction h with
  | nil =>
    subst hr
    exact .more hn hl .nil
  | more hn' hl' _ ih => exact .more hn' hl' (ih hr)
  | last hn' hl' _ ih => exact .last hn' hl' (ih hr)

theorem snoc_last (h : InTurn names batches (name :: rest)) (hn : batch.chunkName = name)
    (hl : batch.lastInChunk = true) : InTurn names (batches ++ [batch]) rest := by
  generalize hr : name :: rest = left at h
  induction h with
  | nil =>
    subst hr
    exact .last hn hl .nil
  | more hn' hl' _ ih => exact .more hn' hl' (ih hr)
  | last hn' hl' _ ih => exact .last hn' hl' (ih hr)

/-- The first batch is one of the first chunk. -/
theorem name_mem (h : InTurn names (batch :: batches) rest) : batch.chunkName ∈ names := by
  cases h with
  | more hn | last hn => exact hn ▸ List.mem_cons_self

theorem of_more (h : InTurn names (batch :: batches) rest) (hl : batch.lastInChunk = false) :
    InTurn names batches rest := by
  cases h with
  | more _ _ h => exact h
  | last _ hl' =>
    rw [hl] at hl'
    cases hl'

theorem of_last (h : InTurn names (batch :: batches) rest) (hl : batch.lastInChunk = true) :
    ∃ names', names = batch.chunkName :: names' ∧ InTurn names' batches rest := by
  cases h with
  | more _ hl' =>
    rw [hl] at hl'
    cases hl'
  | last hn _ h => exact ⟨_, by rw [hn], h⟩

end InTurn

def Delivery.batch? : Delivery → Option AppearanceBatch
  | .batch b => some b
  | .failure _ => none

def batchesIn (deliveries : List Delivery) : List AppearanceBatch :=
  deliveries.filterMap Delivery.batch?

@[simp] theorem batchesIn_append (deliveries more : List Delivery) :
    batchesIn (deliveries ++ more) = batchesIn deliveries ++ batchesIn more :=
  List.filterMap_append

@[simp] theorem batchesIn_batch (batch : AppearanceBatch) (deliveries : List Delivery) :
    batchesIn (.batch batch :: deliveries) = batch :: batchesIn deliveries := rfl

@[simp] theorem batchesIn_failure (f : Failure) (deliveries : List Delivery) :
    batchesIn (.failure f :: deliveries) = batchesIn deliveries := rfl

@[simp] theorem batchesIn_nil : batchesIn [] = [] := rfl

def Writer.batch? : Writer → Option AppearanceBatch
  | inserting batch | flushing batch | marking batch | rejecting batch _ => some batch
  | receiving | returned _ => none

/-! ## What the producer still has to give -/

/-- The chunks whose last batches are not in the queue yet, as far as the producer knows them. -/
def Producer.Awaits : Producer → List String → Prop
  | listing, _ => False
  | between chunks, rest => rest = chunks.map ChunkEntry.name
  | decoding work chunks, rest => rest = work.chunk.name :: chunks.map ChunkEntry.name
  | sending batch work chunks, rest => batch.chunkName = work.chunk.name ∧
      batch.lastInChunk = false ∧ rest = work.chunk.name :: chunks.map ChunkEntry.name
  | completing batch chunks, rest => batch.lastInChunk = true ∧
      rest = batch.chunkName :: chunks.map ChunkEntry.name
  | recording chunk _, rest => rest.head? = some chunk.name
  | failing _, _ | ended, _ => True

namespace Ingest

variable {s u : Ingest} {rest : List String}

theorem awaits_onReceived {work : ChunkInProgress} (size : Nat) (chunks : List ChunkEntry)
    (received : Received) : (Producer.onReceived size work chunks received).Awaits
      (work.chunk.name :: chunks.map ChunkEntry.name) := by
  cases received with
  | appearance d =>
    simp only [Producer.onReceived]
    split
    · exact ⟨rfl, rfl, rfl⟩
    · rfl
  | failure f => rfl
  | finished =>
    simp only [Producer.onReceived]
    split
    · exact ⟨rfl, rfl⟩
    · rfl

theorem awaits_onNextChunk (settings : IngestSettings) (files : FileStore)
    (chunks : List ChunkEntry) : (Producer.onNextChunk settings files chunks).Awaits
      (chunks.map ChunkEntry.name) := by
  cases chunks with
  | nil => trivial
  | cons chunk chunks =>
    simp only [Producer.onNextChunk]
    split
    · rfl
    · trivial
    · rfl

/-- The names of the listing are all different. -/
theorem awaits_listChunks (s : Ingest) :
    ∃ todo : List String, todo.Nodup ∧ s.listChunks.producer.Awaits todo := by
  unfold listChunks
  split
  · next hlist =>
    exact ⟨_, ChunkEntry.nodup_list (Activity.eq_of_around hlist), rfl⟩
  · exact ⟨[], List.nodup_nil, trivial⟩

/-- Whatever the ingest does, what the producer gives is next in turn. -/
theorem awaits_of_transition {move : IngestMove} (h : s.producer.Awaits rest)
    (ht : s.Transition move none u) (hm : move ≠ .receive ∧ move ≠ .abandon)
    (hn : ∀ chunk f, move = .produce → s.producer ≠ .recording chunk f) :
    ∃ rest', u.producer.Awaits rest' ∧ rest' <:+ rest ∧
      (s.producer.isReading = false → u.producer.isReading = false ∧ rest' = rest) ∧
      ∀ names hand, InTurn names (hand ++ batchesIn s.queue) rest →
        InTurn names (hand ++ batchesIn u.queue) rest' := by
  cases ht with
  | list hp =>
    rw [hp] at h
    cases h
  | @next chunks hp =>
    rw [hp] at h ⊢
    cases h
    exact ⟨_, awaits_onNextChunk _ _ _, List.suffix_rfl, (nomatch ·), fun _ _ hi => hi⟩
  | @receive work chunks _ outcome _ hp =>
    rw [hp] at h ⊢
    cases h
    obtain ⟨received, stream⟩ := outcome
    cases received with
    | none => exact ⟨_, rfl, List.suffix_rfl, (nomatch ·), fun _ _ hi => hi⟩
    | some received =>
      exact ⟨_, awaits_onReceived _ _ _, List.suffix_rfl, (nomatch ·), fun _ _ hi => hi⟩
  | @send delivery next hp =>
    cases hprod : s.producer with
    | sending batch work chunks =>
      rw [hprod] at h hp
      cases hp
      obtain ⟨hname, hlast, rfl⟩ := h
      refine ⟨_, rfl, List.suffix_rfl, (nomatch ·), fun names hand hi => ?_⟩
      have hsnoc := hi.snoc_more hname hlast
      simpa using hsnoc
    | completing batch chunks =>
      rw [hprod] at h hp
      cases hp
      obtain ⟨hlast, rfl⟩ := h
      refine ⟨_, rfl, List.suffix_cons _ _, (nomatch ·), fun names hand hi => ?_⟩
      have hsnoc := hi.snoc_last rfl hlast
      simpa using hsnoc
    | failing f =>
      rw [hprod] at hp
      cases hp
      refine ⟨rest, trivial, List.suffix_rfl, fun _ => ⟨rfl, rfl⟩, fun names hand hi => ?_⟩
      simpa using hi
    | _ =>
      rw [hprod] at hp
      cases hp
  | giveUp => exact ⟨rest, trivial, List.suffix_rfl, fun _ => ⟨rfl, rfl⟩, fun _ _ hi => hi⟩
  | record hp => exact absurd hp (hn _ _ rfl)
  | decode _ hp =>
    rw [hp] at h ⊢
    cases h
    exact ⟨_, rfl, List.suffix_rfl, (nomatch ·), fun _ _ hi => hi⟩
  | decodeOn _ hp =>
    rw [hp] at h ⊢
    exact ⟨rest, h, List.suffix_rfl, (nomatch ·), fun _ _ hi => hi⟩
  | abandon => exact absurd rfl hm.2

end Ingest

namespace IngestRun

/-! ## The account -/

/-- The names in the lines of a status. -/
def namesOf (status : ChunkStatus) (written : List StatusLine) : List String :=
  (written.filter (·.status = status)).map StatusLine.name

@[simp] theorem namesOf_append (status : ChunkStatus) (written more : List StatusLine) :
    namesOf status (written ++ more) = namesOf status written ++ namesOf status more := by
  simp [namesOf]

/-- Lines of one status are told by their names. -/
theorem eq_map_namesOf {status : ChunkStatus} {written : List StatusLine}
    (h : ∀ line ∈ written, line.status = status) :
    written = (namesOf status written).map (StatusLine.mk status) := by
  induction written with
  | nil => rfl
  | cons line written ih =>
    rw [List.forall_mem_cons] at h
    obtain ⟨_, name⟩ := line
    obtain rfl := h.1
    simpa [namesOf] using ih h.2

variable {Sink : Type} {r t : IngestRun Sink} {written more : List StatusLine}
  {todo rest : List String}

/-- The lines of a run that has listed its chunks. Those of `todo` are not done, those of `rest` are
not all in the queue. -/
structure Account (written : List StatusLine) (r : IngestRun Sink) (todo rest : List String) :
    Prop where
  nodup : (namesOf .done written ++ todo).Nodup
  awaits : r.ingest.producer.Awaits rest
  suffix : rest <:+ todo
  inTurn : r.ingest.abandoned = false →
    InTurn todo (r.writer.batch?.toList ++ batchesIn r.ingest.queue) rest
  last : ∀ batch, r.writer = .flushing batch ∨ r.writer = .marking batch →
    batch.lastInChunk = true
  left : r.ingest.abandoned = true → ∃ result, r.writer = .returned result
  failed : namesOf .error written = [] ∨
    r.ingest.producer.isReading = false ∧ ∃ name ∈ rest, namesOf .error written = [name]
  refused : namesOf .appearanceError written = [] ∨
    r.ingest.abandoned = true ∧ ∃ name ∈ todo, namesOf .appearanceError written = [name]

/-- The lines of a run at any moment. -/
inductive Accounted (written : List StatusLine) (r : IngestRun Sink) : Prop where
  | fresh (hl : written = []) (hp : r.ingest.producer = .listing) (hq : r.ingest.queue = [])
      (ha : r.ingest.abandoned = false) (hw : r.writer = .receiving)
  | listed {todo rest : List String} (h : Account written r todo rest)

theorem Account.stays (h : Account written r todo rest)
    (hw : ∀ result, r.writer ≠ .returned result) : r.ingest.abandoned = false := by
  cases ha : r.ingest.abandoned with
  | false => rfl
  | true =>
    obtain ⟨result, hr⟩ := h.left ha
    exact absurd hr (hw result)

theorem Account.none_refused (h : Account written r todo rest) (ha : r.ingest.abandoned = false) :
    namesOf .appearanceError written = [] := by
  rcases h.refused with hnone | ⟨hleft, -⟩
  · exact hnone
  · rw [ha] at hleft
    cases hleft

/-- The writer returns. -/
theorem Account.returnWith (h : Account written r todo rest) (files : FileStore)
    (result : Except Failure Unit) :
    Account written (returnWith { r with ingest := { r.ingest with files } } result) todo rest where
  nodup := h.nodup
  awaits := h.awaits
  suffix := h.suffix
  inTurn := fun ha => by cases ha
  last := fun batch hw => by rcases hw with hw | hw <;> cases hw
  left := fun _ => ⟨result, rfl⟩
  failed := h.failed
  refused := h.refused.imp_right fun ⟨_, hname⟩ => ⟨rfl, hname⟩

/-! ## One move -/

/-- The line that is to get into the log in a move. -/
def due (r : IngestRun Sink) : RunMove → Option StatusLine
  | .write =>
    match r.writer with
    | .marking batch => some ⟨.done, batch.chunkName⟩
    | .rejecting batch _ => some ⟨.appearanceError, batch.chunkName⟩
    | _ => none
  | .ingest .produce =>
    match r.ingest.producer with
    | .recording chunk _ => some ⟨.error, chunk.name⟩
    | _ => none
  | .ingest _ => none

theorem due_ingest {move : IngestMove}
    (hn : ∀ chunk f, move = .produce → r.ingest.producer ≠ .recording chunk f) :
    r.due (.ingest move) = none := by
  cases move with
  | produce =>
    cases hp : r.ingest.producer with
    | recording chunk f => exact absurd hp (hn chunk f rfl)
    | _ => simp only [due, hp]
  | _ => rfl

/-- The line gets into the log, or does not. -/
theorem linesIn_written?_sublist (r : IngestRun Sink) (line : StatusLine) :
    (linesIn (r.written? line)).Sublist [line] := by
  rcases r.written?_eq line with hout | hout <;> simp [hout]

theorem namesOf_of_sublist {line : StatusLine} (h : more.Sublist [line]) (status : ChunkStatus) :
    namesOf status more = if line.status = status ∧ more ≠ [] then [line.name] else [] := by
  rcases List.sublist_singleton.mp h with rfl | rfl
  · simp [namesOf]
  · by_cases hs : line.status = status <;> simp [namesOf, hs]

theorem Account.ingest (h : Account written r todo rest) {move : IngestMove} {u : Ingest}
    (ht : r.ingest.Transition move none u) (hm : move ≠ .receive ∧ move ≠ .abandon)
    (hn : ∀ chunk f, move = .produce → r.ingest.producer ≠ .recording chunk f) :
    ∃ rest', Account written { r with ingest := u } todo rest' := by
  obtain ⟨rest', hawaits, hsuffix, hended, hturn⟩ := Ingest.awaits_of_transition h.awaits ht hm hn
  have habandoned := ht.frame.2.2.2 hm.2
  refine ⟨rest', h.nodup, hawaits, hsuffix.trans h.suffix, fun ha => ?_, h.last, fun ha => ?_, ?_,
    ?_⟩
  · exact hturn _ _ (h.inTurn (habandoned ▸ ha))
  · exact h.left (habandoned ▸ ha)
  · refine h.failed.imp_right fun ⟨hreading, hname⟩ => ?_
    obtain ⟨hstill, rfl⟩ := hended hreading
    exact ⟨hstill, hname⟩
  · exact h.refused.imp_right fun ⟨ha, hname⟩ => ⟨habandoned.trans ha, hname⟩

/-- The producer's line is that of a chunk that is not done. -/
theorem Account.recordError (h : Account written r todo rest) {chunk : ChunkEntry} {f : Failure}
    (hp : r.ingest.producer = .recording chunk f) (hm : more.Sublist [⟨.error, chunk.name⟩]) :
    Account (written ++ more) { r with ingest := r.ingest.recordFailure chunk f } todo rest := by
  obtain ⟨producer, files, hframe⟩ := r.ingest.recordFailure_frame chunk f
  obtain ⟨g, hg⟩ := r.ingest.exists_failing chunk f
  have hawaits := h.awaits
  rw [hp] at hawaits
  have hnone : namesOf .error written = [] := by
    rcases h.failed with hnone | ⟨hreading, -⟩
    · exact hnone
    · rw [hp] at hreading
      cases hreading
  have hproducer : producer = .failing g := by rw [← hg, hframe]
  rw [hframe, hproducer]
  refine ⟨?_, trivial, h.suffix, h.inTurn, h.last, h.left, ?_, ?_⟩
  · rw [namesOf_append, namesOf_of_sublist hm]
    simpa using h.nodup
  · rw [namesOf_append, namesOf_of_sublist hm, hnone]
    split
    · exact .inr ⟨rfl, chunk.name, List.mem_of_mem_head? hawaits, rfl⟩
    · exact .inl rfl
  · rw [namesOf_append, namesOf_of_sublist hm]
    simpa using h.refused

/-- The line of a chunk that is done is that of the first chunk in turn. -/
theorem Account.mark (h : Account written r todo rest) {batch : AppearanceBatch}
    (hw : r.writer = .marking batch) (hm : more.Sublist [⟨.done, batch.chunkName⟩])
    (files : FileStore) :
    ∃ todo', Account (written ++ more)
      { r with ingest := { r.ingest with files }, writer := .receiving } todo' rest := by
  have ha := h.stays (by simp [hw])
  have hturn := h.inTurn ha
  rw [hw] at hturn
  obtain ⟨todo', rfl, hrest⟩ := hturn.of_last (h.last batch (.inr hw))
  refine ⟨todo', ?_, h.awaits, hrest.suffix, fun _ => hrest, ?_, ?_, ?_, ?_⟩
  · rw [namesOf_append, namesOf_of_sublist hm]
    split
    · simpa using h.nodup
    · exact h.nodup.sublist (by simp)
  · intro batch hb
    rcases hb with hb | hb <;> cases hb
  · intro hb
    rw [ha] at hb
    cases hb
  · rw [namesOf_append, namesOf_of_sublist hm]
    simpa using h.failed
  · rw [namesOf_append, namesOf_of_sublist hm, h.none_refused ha]
    simp

/-- The sink has refused a batch of the first chunk in turn. -/
theorem Account.reject (h : Account written r todo rest) {batch : AppearanceBatch} {f : Failure}
    (hw : r.writer = .rejecting batch f) (hm : more.Sublist [⟨.appearanceError, batch.chunkName⟩])
    (files : FileStore) (result : Except Failure Unit) :
    Account (written ++ more)
      (IngestRun.returnWith { r with ingest := { r.ingest with files } } result) todo rest := by
  have ha := h.stays (by simp [hw])
  have hturn := h.inTurn ha
  rw [hw] at hturn
  have hreturned := h.returnWith files result
  refine { hreturned with nodup := ?_, failed := ?_, refused := ?_ }
  · rw [namesOf_append, namesOf_of_sublist hm]
    simpa using h.nodup
  · rw [namesOf_append, namesOf_of_sublist hm]
    simpa using hreturned.failed
  · rw [namesOf_append, namesOf_of_sublist hm, h.none_refused ha]
    split
    · exact .inr ⟨rfl, batch.chunkName, hturn.name_mem, rfl⟩
    · exact .inl rfl

/-- The writer goes on with the batch that it has in hand, or takes the next. -/
theorem Account.goOn (h : Account written r todo rest)
    (hw : ∀ result, r.writer ≠ .returned result) {u : IngestRun Sink}
    (hp : u.ingest.producer = r.ingest.producer) (hu : u.ingest.abandoned = r.ingest.abandoned)
    (hturn : InTurn todo (u.writer.batch?.toList ++ batchesIn u.ingest.queue) rest)
    (hlast : ∀ batch, u.writer = .flushing batch ∨ u.writer = .marking batch →
      batch.lastInChunk = true) : Account written u todo rest where
  nodup := h.nodup
  awaits := hp ▸ h.awaits
  suffix := h.suffix
  inTurn := fun _ => hturn
  last := hlast
  left := fun ha => by rw [hu, h.stays hw] at ha; cases ha
  failed := hp ▸ h.failed
  refused := hu ▸ h.refused

/-- The account of a run begins when its chunks are listed. -/
theorem exists_account_of_fresh (hq : r.ingest.queue = []) (ha : r.ingest.abandoned = false)
    (hw : r.writer = .receiving) :
    ∃ todo, Account [] { r with ingest := r.ingest.listChunks } todo todo := by
  obtain ⟨todo, hnodup, hawaits⟩ := r.ingest.awaits_listChunks
  obtain ⟨producer, hframe⟩ := r.ingest.listChunks_frame
  rw [hframe] at hawaits ⊢
  refine ⟨todo, hnodup, hawaits, List.suffix_rfl, fun _ => ?_, by simp [hw], by simp [ha],
    .inl rfl, .inl rfl⟩
  simp only [hw, hq]
  exact .nil

def statusesOf (name : String) (written : List StatusLine) : List ChunkStatus :=
  (written.filter (·.name = name)).map StatusLine.status

theorem count_statusesOf (name : String) (written : List StatusLine) (status : ChunkStatus) :
    (statusesOf name written).count status = (namesOf status written).count name := by
  induction written with
  | nil => rfl
  | cons line written ih =>
    by_cases hn : line.name = name <;> by_cases hs : line.status = status <;>
      simp_all [statusesOf, namesOf]

theorem length_eq_counts (statuses : List ChunkStatus) : statuses.length =
    statuses.count .done + statuses.count .error + statuses.count .appearanceError := by
  induction statuses with
  | nil => rfl
  | cons status statuses ih => cases status <;> simp [ih] <;> omega

/-- A chunk is done at most once, and only if nobody failed on it. -/
theorem Account.counts (h : Account written r todo rest) (name : String) :
    (namesOf .done written).count name + (namesOf .error written).count name ≤ 1 ∧
      (namesOf .done written).count name + (namesOf .appearanceError written).count name ≤ 1 := by
  have hdone := List.nodup_iff_count_le_one.mp h.nodup name
  rw [List.count_append] at hdone
  have hone : ∀ names : List String, (names = [] ∨ ∃ other ∈ todo, names = [other]) →
      names.count name ≤ todo.count name := by
    rintro names (rfl | ⟨other, hmem, rfl⟩)
    · exact Nat.zero_le _
    · by_cases heq : other = name
      · subst heq
        simpa using hmem
      · simp [heq]
  have hfailed := hone _ (h.failed.imp_right fun ⟨_, other, hmem, hl⟩ =>
    ⟨other, h.suffix.subset hmem, hl⟩)
  have hrefused := hone _ (h.refused.imp_right And.right)
  omega

/-- A line that says that a chunk is done is the only line of the chunk. -/
theorem Account.statusesOf_eq (h : Account written r todo rest) {name : String}
    (hm : ⟨.done, name⟩ ∈ written) :
    statusesOf name written = [.done] := by
  obtain ⟨herror, hrefused⟩ := h.counts name
  have hdone : 0 < (namesOf .done written).count name :=
    List.count_pos_iff.mpr (List.mem_map.mpr ⟨_, List.mem_filter.mpr ⟨hm, by simp⟩, rfl⟩)
  have hlength := length_eq_counts (statusesOf name written)
  have hcount := count_statusesOf name written .done
  simp only [count_statusesOf] at hlength
  obtain ⟨status, hstatus⟩ := List.length_eq_one_iff.mp
    (show (statusesOf name written).length = 1 by omega)
  rw [hstatus] at hcount ⊢
  have hsame : status = .done := by
    refine Classical.byContradiction fun hne => ?_
    rw [List.count_singleton, if_neg (by simpa using hne)] at hcount
    omega
  rw [hsame]

/-- The order of the lines does not matter. -/
theorem Accounted.perm (h : Accounted written r) (hp : written.Perm more) : Accounted more r := by
  have hnames : ∀ status, (namesOf status more).Perm (namesOf status written) :=
    fun status => (hp.symm.filter _).map _
  have hnone : ∀ {status}, namesOf status written = [] → namesOf status more = [] :=
    fun {status} hn => List.perm_nil.mp (hn ▸ hnames status)
  have hone : ∀ {status name}, namesOf status written = [name] → namesOf status more = [name] :=
    fun {status name} hn => List.perm_singleton.mp (hn ▸ hnames status)
  cases h with
  | fresh hl hproducer hq ha hw =>
    exact .fresh (List.nil_perm.mp (hl ▸ hp)) hproducer hq ha hw
  | @listed todo rest h =>
    refine .listed { h with nodup := ?_, failed := ?_, refused := ?_ }
    · exact (((hnames .done).append_right todo).nodup_iff).mpr h.nodup
    · exact h.failed.imp hnone (.imp_right fun ⟨name, hmem, hn⟩ => ⟨name, hmem, hone hn⟩)
    · exact h.refused.imp hnone (.imp_right fun ⟨name, hmem, hn⟩ => ⟨name, hmem, hone hn⟩)

variable [AppearanceSink Sink]

/-- Every move keeps the account. -/
theorem Account.step (h : Account written r todo rest) {move : RunMove} {output : Option RunOutput}
    (ht : r.Transition move output t) (hm : more.Sublist (r.due move).toList) :
    ∃ todo' rest', Account (written ++ more) t todo' rest' := by
  have hkeep : ∀ {u : IngestRun Sink} {todo' rest'}, r.due move = none →
      Account written u todo' rest' → ∃ todo' rest', Account (written ++ more) u todo' rest' := by
    intro u todo' rest' hnone hu
    rw [hnone, Option.toList_none, List.sublist_nil] at hm
    rw [hm, List.append_nil]
    exact ⟨_, _, hu⟩
  cases ht with
  | ingest hmove hn hi =>
    obtain ⟨rest', h'⟩ := h.ingest hi hmove hn
    exact hkeep (due_ingest hn) h'
  | recordError hp =>
    simp only [due, hp, Option.toList_some] at hm
    exact ⟨_, _, h.recordError hp hm⟩
  | @take batch queue hw hq =>
    have hreturned : ∀ result, r.writer ≠ .returned result := by simp [hw]
    have hturn := h.inTurn (h.stays hreturned)
    rw [hw, hq] at hturn
    exact hkeep (by simp [due, hw]) (h.goOn hreturned rfl rfl hturn (by simp))
  | takeFailure hw => exact hkeep (by simp [due, hw]) (h.returnWith _ _)
  | finish hw => exact hkeep (by simp [due, hw]) (h.returnWith _ _)
  | @insert batch sink files hw hs =>
    have hreturned : ∀ result, r.writer ≠ .returned result := by simp [hw]
    have hnone : r.due .write = none := by simp [due, hw]
    have hturn := h.inTurn (h.stays hreturned)
    rw [hw] at hturn
    cases hl : batch.lastInChunk with
    | true =>
      refine hkeep hnone (h.goOn hreturned rfl rfl hturn fun other hb => ?_)
      rcases hb with hb | hb
      · cases hb
        exact hl
      · cases hb
    | false => exact hkeep hnone (h.goOn hreturned rfl rfl (hturn.of_more hl) (by simp))
  | @flush batch sink files hw hs =>
    have hreturned : ∀ result, r.writer ≠ .returned result := by simp [hw]
    have hturn := h.inTurn (h.stays hreturned)
    rw [hw] at hturn
    refine hkeep (by simp [due, hw]) (h.goOn hreturned rfl rfl hturn fun other hb => ?_)
    rcases hb with hb | hb
    · cases hb
    · cases hb
      exact h.last batch (.inl hw)
  | @refuse batch f sink files hs =>
    have hw : r.writer = .inserting batch ∨ r.writer = .flushing batch :=
      hs.imp And.left And.left
    have hreturned : ∀ result, r.writer ≠ .returned result := by
      rcases hw with hw | hw <;> simp [hw]
    have hbatch : r.writer.batch? = some batch := by
      rcases hw with hw | hw <;> rw [hw] <;> rfl
    have hnone : r.due .write = none := by rcases hw with hw | hw <;> simp [due, hw]
    have hturn := h.inTurn (h.stays hreturned)
    rw [hbatch] at hturn
    exact hkeep hnone (h.goOn hreturned rfl rfl hturn (by simp))
  | mark hw _ =>
    simp only [due, hw, Option.toList_some] at hm
    obtain ⟨todo', h'⟩ := h.mark hw hm _
    exact ⟨_, _, h'⟩
  | reject hw _ =>
    simp only [due, hw, Option.toList_some] at hm
    exact ⟨_, _, h.reject hw hm _ _⟩
  | @recordFails batch status f files hw _ =>
    rcases hw with ⟨hw, -⟩ | ⟨g, hw, -⟩
    · simp only [due, hw, Option.toList_some] at hm
      obtain ⟨todo', h'⟩ := h.mark hw hm files
      exact ⟨_, _, h'.returnWith files (.error f)⟩
    · simp only [due, hw, Option.toList_some] at hm
      exact ⟨_, _, h.reject hw hm files (.error f)⟩

/-- What a move gets into the log is the line that is due. -/
theorem Transition.linesIn_sublist {move : RunMove} {output : Option RunOutput}
    (h : r.Transition move output t) : (linesIn output).Sublist (r.due move).toList := by
  cases h with
  | recordError hp =>
    simp only [due, hp]
    exact linesIn_written?_sublist _ _
  | mark hw | reject hw =>
    simp only [due, hw]
    exact linesIn_written?_sublist _ _
  | _ => exact List.nil_sublist _

/-- Every move keeps the account, also if a line that is due does not get into the log. -/
theorem Accounted.step (h : Accounted written r) {move : RunMove} {output : Option RunOutput}
    (ht : r.Transition move output t) (hm : more.Sublist (r.due move).toList) :
    Accounted (written ++ more) t := by
  cases h with
  | fresh hl hp hq ha hw =>
    have hnone : r.due move = none := by
      rcases move with _ | _ | _ <;> simp [due, hp, hw]
    rw [hnone, Option.toList_none, List.sublist_nil] at hm
    obtain ⟨-, rfl⟩ := ht.of_fresh hp hq ha hw
    obtain ⟨todo, h⟩ := exists_account_of_fresh hq ha hw
    rw [hl, hm]
    exact .listed h
  | listed h =>
    obtain ⟨todo, rest, h'⟩ := h.step ht hm
    exact .listed h'

section Start

variable {settings : IngestSettings} {directory : Path} {log : Option StatusLog}
  {files : FileStore} {sink : Sink} {events : List (Event Sink)}

theorem accounted_of_trail (h : Trail shown (start settings directory log files sink) events r) :
    Accounted (lines events) r := by
  induction h with
  | start => exact .fresh rfl rfl rfl rfl rfl
  | @step events t u move output _ hs ih =>
    have ht := transition_of_shown hs
    rw [lines_append, lines_single]
    exact ih.step ht ht.linesIn_sublist

/-- At any moment a chunk has at most one line, or it has two because it could not be decoded and
the sink refused a batch of it, each told by one of the two parties. -/
theorem statusesOf_of_trail
    (h : Trail shown (start settings directory log files sink) events r) (name : String) :
    (statusesOf name (lines events)).length ≤ 1 ∨
      (statusesOf name (lines events)).Perm [.error, .appearanceError] := by
  cases accounted_of_trail h with
  | fresh hl => simp [hl, statusesOf]
  | listed h =>
    obtain ⟨herror, hrefused⟩ := h.counts name
    rw [length_eq_counts, List.perm_iff_count]
    simp only [← count_statusesOf] at herror hrefused
    by_cases htwo : (statusesOf name (lines events)).count .error = 1 ∧
        (statusesOf name (lines events)).count .appearanceError = 1
    · right
      intro status
      cases status <;> simp <;> omega
    · left
      omega

end Start

/-! ## A chunk that fails twice -/

/-- A sink that takes nothing in. -/
structure ShutSink where

instance : AppearanceSink ShutSink where
  insert sink files _ := (.error (.ofIoError .insertAppearances .noSpace), sink, files)
  flush sink files := (.ok (), sink, files)

/-- A run that lists chunks goes on from the listing. -/
theorem trail_of_list {settings : IngestSettings} {directory : Path} {files : FileStore}
    {chunks : List ChunkEntry} (log : Option StatusLog) (sink : Sink)
    (h : ChunkEntry.list files directory settings.window = .ok chunks) (moves : List RunMove) :
    let run := Trail.follow shown
      ⟨(Ingest.new settings directory log files).listedAs chunks, sink, .receiving⟩ moves
    ∃ events, Trail shown (start settings directory log files sink) events run.2 ∧
      Trail.outputs events = Trail.outputs run.1 := by
  have hlist : (start settings directory log files sink).shown (.ingest .produce) = some (none,
      ⟨(Ingest.new settings directory log files).listedAs chunks, sink, .receiving⟩) := by
    simp only [shown, step, start, Ingest.produce_of_list log h, Option.map_some]
    rfl
  exact ⟨_, (Trail.start.step hlist).trans (Trail.trail_follow shown _ moves), rfl⟩

def badOnly : IngestSettings := { Ingest.oneByOne with window := ⟨some 10, some 19⟩ }

/-- The ingest goes as far as it can before the writer begins. -/
def ingestFirst : List RunMove :=
  (List.replicate 20 [.ingest (.decode (.work 0)), .ingest .produce,
    .ingest (.decode .close)]).flatten ++ [.write, .write, .write]

/-- The second span of the chunk does not fit, and the sink refuses the batch of the first. -/
theorem exists_two_lines :
    ∃ events r, Trail shown (start badOnly ⟨"/chunks"⟩ (some ⟨["status"]⟩) Ingest.sampleFiles
        ShutSink.mk) events r ∧
      statusesOf "000000010-000000019" (lines events) = [.error, .appearanceError] := by
  have hlist : ChunkEntry.list Ingest.sampleFiles ⟨"/chunks"⟩ badOnly.window =
      .ok ((Ingest.sampleEntries.drop 1).take 1) :=
    ChunkEntry.list_of_sorted (by decide +kernel) (by decide)
  obtain ⟨events, htrail, houtputs⟩ :=
    trail_of_list (some ⟨["status"]⟩) ShutSink.mk hlist ingestFirst
  refine ⟨events, _, htrail, ?_⟩
  rw [lines, houtputs]
  decide +kernel

theorem statusesOf_of_shut_sink :
    ∃ events r, Trail shown (start badOnly ⟨"/chunks"⟩ (some ⟨["status"]⟩) Ingest.sampleFiles
        ShutSink.mk) events r ∧
      (statusesOf "000000010-000000019" (lines events)).Perm [.error, .appearanceError] := by
  obtain ⟨events, r, htrail, htwo⟩ := exists_two_lines
  refine ⟨events, r, htrail, ?_⟩
  rcases statusesOf_of_trail htrail "000000010-000000019" with hone | hperm
  · rw [htwo] at hone
    exact absurd hone (by decide)
  · exact hperm

theorem not_one_line_of_shut_sink :
    ¬ ∀ (Sink : Type) [AppearanceSink Sink] (settings : IngestSettings) (directory : Path)
      (log : Option StatusLog) (files : FileStore) (sink : Sink) (events : List (Event Sink))
      (r : IngestRun Sink), Trail shown (start settings directory log files sink) events r →
      ∀ name, (statusesOf name (lines events)).length ≤ 1 := by
  intro hall
  obtain ⟨events, r, htrail, htwo⟩ := exists_two_lines
  have hone := hall _ _ _ _ _ _ _ _ htrail "000000010-000000019"
  rw [htwo] at hone
  exact absurd hone (by decide)

end IngestRun

end AppearanceIndex
