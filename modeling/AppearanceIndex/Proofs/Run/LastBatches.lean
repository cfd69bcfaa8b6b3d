import AppearanceIndex.Proofs.Run.Lines

/-!
# Last batches

The batches that an ingest has produced are those of whole chunks, in the order of the listing, and
then some of a chunk that is not complete. So the batches up to a last one are those of whole chunks
(`Ingest.Completed.split_of_last`), and no batch behind them is of one of these chunks
(`Ingest.Completed.filter_name`).
-/

namespace AppearanceIndex

/-- The chunks whose last batches are among these. -/
def lastNames (batches : List AppearanceBatch) : List String :=
  (batches.filter (·.lastInChunk)).map (·.chunkName)

theorem lastNames_snoc (batches : List AppearanceBatch) (batch : AppearanceBatch) :
    lastNames (batches ++ [batch]) =
      lastNames batches ++ if batch.lastInChunk then [batch.chunkName] else [] := by
  cases hl : batch.lastInChunk <;> simp [lastNames, hl]

def batchesOf (name : String) (deliveries : List Delivery) : List AppearanceBatch :=
  (batchesIn deliveries).filter (·.chunkName = name)

namespace Ingest

variable {s : Ingest} {done : List (ChunkEntry × List AppearanceBatch)} {left : List ChunkEntry}
  {batches before : List AppearanceBatch} {batch : AppearanceBatch}

@[simp] theorem batchesIn_asDeliveries (batches : List AppearanceBatch) :
    batchesIn (asDeliveries batches) = batches := by
  induction batches with
  | nil => rfl
  | cons batch batches ih => simpa [asDeliveries] using ih

@[simp] theorem batchesIn_deliveriesOf (done : List (ChunkEntry × List AppearanceBatch)) :
    batchesIn (deliveriesOf done) = done.flatMap Prod.snd := by
  induction done with
  | nil => rfl
  | cons entry done ih =>
    have hcons : deliveriesOf (entry :: done) = asDeliveries entry.2 ++ deliveriesOf done := rfl
    rw [hcons, batchesIn_append, batchesIn_asDeliveries, ih, List.flatMap_cons]

theorem batchesIn_failures {failures : List Delivery} (h : ∀ d ∈ failures, ∃ f, d = .failure f) :
    batchesIn failures = [] := by
  refine List.filterMap_eq_nil_iff.mpr fun d hd => ?_
  obtain ⟨f, rfl⟩ := h d hd
  rfl

/-- The batches among what was produced: those of complete chunks, then others. -/
theorem Produced.batchesIn_eq {produced : List Delivery} {producer : Producer}
    {chunks : List ChunkEntry}
    (hlist : ChunkEntry.list s.files s.directory s.settings.window = .ok chunks)
    (h : s.Produced produced producer) :
    ∃ done left batches, s.Completed done left ∧ Unfinished left batches ∧
      batchesIn produced = done.flatMap Prod.snd ++ batches := by
  obtain ⟨done, left, batches, failure, hdone, -, hun, hfailure, rfl⟩ := h.shape hlist
  exact ⟨done, left, batches, hdone, hun, by simp [batchesIn_failures hfailure]⟩

/-- Batches are produced only if there is a listing. -/
theorem Produced.listed {produced : List Delivery} {producer : Producer}
    (h : s.Produced produced producer) (hb : batch ∈ batchesIn produced) :
    ∃ chunks, ChunkEntry.list s.files s.directory s.settings.window = .ok chunks := by
  cases h with
  | listing | unlisted => cases hb
  | between hdone | decoding hdone | sending hdone | completing hdone | recording hdone
  | failing hdone | aborted hdone | ended hdone => exact ⟨_, hdone.listed⟩
  | failed hfailing =>
    cases hfailing with
    | unlisted => cases hb
    | failing hdone => exact ⟨_, hdone.listed⟩

theorem Completed.last_of_getLast? (h : s.Completed done left)
    (hb : (done.flatMap Prod.snd).getLast? = some batch) : batch.lastInChunk = true := by
  rcases List.eq_nil_or_concat done with rfl | ⟨init, entry, rfl⟩
  · cases hb
  · obtain ⟨items, -, full, last, heq, -, -, -, hlast⟩ := h.complete entry (by simp)
    have hsame : last = batch := by simpa [heq] using hb
    rw [← hsame, hlast]

theorem Completed.lastNames_eq (h : s.Completed done left) :
    lastNames (done.flatMap Prod.snd) = done.map fun entry => entry.1.name := by
  have hall := h.complete
  clear h
  induction done with
  | nil => rfl
  | cons entry done ih =>
    rw [List.forall_mem_cons] at hall
    obtain ⟨items, -, full, last, heq, hp, -, hname, hlast⟩ := hall.1
    have hfull : lastNames full = [] := by
      simp only [lastNames, List.map_eq_nil_iff, List.filter_eq_nil_iff]
      exact fun b hb => by simp [(hp.full b hb).2.2.2]
    have hentry : lastNames entry.2 = [entry.1.name] := by
      rw [heq, lastNames_snoc, hfull, hlast, hname]
      rfl
    have happend : lastNames (entry.2 ++ done.flatMap Prod.snd) =
        lastNames entry.2 ++ lastNames (done.flatMap Prod.snd) := by simp [lastNames]
    rw [List.flatMap_cons, happend, hentry, ih hall.2]
    rfl

/-- The batches up to a last one are those of whole chunks. -/
theorem Completed.split_of_last (h : s.Completed done left) (hu : Unfinished left batches)
    (hpre : before ++ [batch] <+: done.flatMap Prod.snd ++ batches)
    (hlast : batch.lastInChunk = true) :
    ∃ passed entry behind, done = passed ++ entry :: behind ∧
      before ++ [batch] = passed.flatMap Prod.snd ++ entry.2 ∧
      batch.chunkName = entry.1.name := by
  have hall := h.complete
  clear h
  induction done generalizing before with
  | nil =>
    have hmem := hpre.subset (List.mem_append_right _ (List.mem_singleton_self batch))
    rw [(hu batch hmem).1] at hlast
    cases hlast
  | cons entry done ih =>
    rw [List.forall_mem_cons] at hall
    obtain ⟨items, -, full, last, heq, hp, -, hname, -⟩ := hall.1
    have hnot : ∀ b ∈ full, b.lastInChunk = false := fun b hb => (hp.full b hb).2.2.2
    have hhere : before ++ [batch] = entry.2 → ∃ passed found behind,
        entry :: done = passed ++ found :: behind ∧
          before ++ [batch] = passed.flatMap Prod.snd ++ found.2 ∧
          batch.chunkName = found.1.name := by
      intro hsame
      rw [heq] at hsame
      obtain ⟨-, hb⟩ := List.append_inj' hsame rfl
      cases hb
      exact ⟨[], entry, done, rfl, by rw [hsame, heq]; rfl, hname⟩
    rw [List.flatMap_cons, List.append_assoc] at hpre
    rcases List.prefix_or_prefix_of_prefix hpre (List.prefix_append entry.2 _) with hcut | hout
    · rw [heq, List.prefix_concat_iff] at hcut
      rcases hcut with hsame | hcut
      · exact hhere (by rw [hsame, heq])
      · rw [hnot batch (hcut.subset (by simp))] at hlast
        cases hlast
    · obtain ⟨more, hmore⟩ := hout
      rcases List.eq_nil_or_concat more with rfl | ⟨init, other, rfl⟩
      · exact hhere (by rw [← hmore, List.append_nil])
      · rw [List.concat_eq_append, ← List.append_assoc] at hmore
        obtain ⟨rfl, hb⟩ := List.append_inj' hmore rfl
        cases hb
        rw [List.append_assoc, List.prefix_append_right_inj] at hpre
        obtain ⟨passed, found, behind, rfl, hsplit, hfound⟩ := ih hpre hall.2
        exact ⟨entry :: passed, found, behind, rfl, by simp [hsplit], hfound⟩

/-- No other batch has the name of the chunk. -/
theorem Completed.filter_name {passed behind : List (ChunkEntry × List AppearanceBatch)}
    {entry : ChunkEntry × List AppearanceBatch} {rest : List AppearanceBatch}
    (h : s.Completed (passed ++ entry :: behind) left) (hu : Unfinished left batches)
    (hrest : rest <+: behind.flatMap Prod.snd ++ batches) :
    (passed.flatMap Prod.snd ++ entry.2 ++ rest).filter (·.chunkName = entry.1.name) = entry.2 := by
  have hnames := ChunkEntry.nodup_list h.listed
  have hnamed : ∀ e ∈ passed ++ entry :: behind, ∀ b ∈ e.2, b.chunkName = e.1.name := by
    intro e he b hb
    obtain ⟨items, -, hbatched⟩ := h.complete e he
    exact (hbatched.of_mem hb).2
  simp only [List.map_append, List.map_cons, List.append_assoc, List.cons_append,
    List.nodup_append, List.nodup_cons, List.mem_append, List.mem_map] at hnames
  obtain ⟨-, ⟨hbehind, -⟩, hpassed⟩ := hnames
  have hbefore : (passed.flatMap Prod.snd).filter (·.chunkName = entry.1.name) = [] := by
    refine List.filter_eq_nil_iff.mpr fun b hb => ?_
    obtain ⟨e, he, hb⟩ := List.mem_flatMap.mp hb
    simp only [decide_eq_true_eq]
    intro heq
    rw [hnamed e (List.mem_append_left _ he) b hb] at heq
    exact hpassed e.1.name ⟨e.1, ⟨e, he, rfl⟩, rfl⟩ entry.1.name List.mem_cons_self heq
  have hafter : rest.filter (·.chunkName = entry.1.name) = [] := by
    refine List.filter_eq_nil_iff.mpr fun b hb => ?_
    simp only [decide_eq_true_eq]
    intro heq
    refine hbehind ?_
    rcases List.mem_append.mp (hrest.subset hb) with hb | hb
    · obtain ⟨e, he, hb⟩ := List.mem_flatMap.mp hb
      rw [hnamed e (by simp [he]) b hb] at heq
      exact .inl ⟨e.1, ⟨e, he, rfl⟩, heq⟩
    · obtain ⟨chunk, hc, hname⟩ := List.mem_map.mp (hu b hb).2
      exact .inr ⟨chunk, hc, hname.trans heq⟩
  have hwithin : entry.2.filter (·.chunkName = entry.1.name) = entry.2 :=
    List.filter_eq_self.mpr fun b hb => by simp [hnamed entry (by simp) b hb]
  rw [List.filter_append, List.filter_append, hbefore, hafter, hwithin, List.nil_append,
    List.append_nil]

end Ingest

end AppearanceIndex
