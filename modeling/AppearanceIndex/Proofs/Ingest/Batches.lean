import AppearanceIndex.Proofs.Ingest.Work

/-!
# The batches of a chunk

What the producer receives from the decode of a chunk travels in batches, in the order in which it
was received: in as many full ones as there are, and what is left over, if anything, in one more
that is marked as the last (`ChunkEntry.Portions`). A decode that gives as many appearances as the
chunk declares has all of them sent so (`Ingest.batches_of_received`).
-/

namespace AppearanceIndex

namespace ChunkEntry

/-- A batch of the chunk that is full and not the last. -/
def Fills (chunk : ChunkEntry) (size : Nat) (batch : AppearanceBatch) : Prop :=
  batch.range = chunk.range ∧ batch.chunkName = chunk.name ∧ batch.appearances.length = size ∧
    batch.lastInChunk = false

/-- The items of a chunk as they travel: full batches, and a last one for the rest. -/
structure Portions (chunk : ChunkEntry) (size : Nat) (items : List DecodedAppearance)
    (full : List AppearanceBatch) (last : AppearanceBatch) : Prop where
  items_eq : Ingest.appearancesOf (full ++ [last]) = items
  length_full : full.length = items.length / size
  full : ∀ batch ∈ full, chunk.Fills size batch
  last : last.range = chunk.range ∧ last.chunkName = chunk.name ∧
    last.appearances.length = items.length % size ∧ last.lastInChunk = true

variable {chunk : ChunkEntry} {size : Nat} {items rest : List DecodedAppearance}
  {batches full full' : List AppearanceBatch} {last last' : AppearanceBatch}

theorem PartlyBatched.length_items (h : chunk.PartlyBatched size items batches rest) :
    items.length = batches.length * size + rest.length := by
  have hall : batches.map (·.appearances.length) = List.replicate batches.length size := by
    rw [← List.map_const']
    exact List.map_congr_left fun batch hmem => (h.full batch hmem).2.2.1
  rw [h.items_eq, List.length_append, List.length_flatMap, hall, List.sum_replicate_nat]

/-- Full batches and a rest too short for one more are a division with remainder. -/
theorem Batched.portions (h : chunk.Batched size items batches) :
    ∃ full last, batches = full ++ [last] ∧ chunk.Portions size items full last := by
  have hitems : items = Ingest.appearancesOf batches := h.items_eq
  obtain ⟨full, last, rfl, hp, hrange, hname, hlast⟩ := h
  have hlength := hp.length_items
  have hdiv : items.length / size = full.length ∧ items.length % size = last.appearances.length :=
    (Nat.div_mod_unique (Nat.zero_lt_of_lt hp.short)).mpr
      ⟨by rw [hlength, Nat.mul_comm, Nat.add_comm], hp.short⟩
  exact ⟨full, last, rfl, hitems.symm, hdiv.1.symm, hp.full,
    hrange, hname, hdiv.2.symm, hlast⟩

theorem Fills.eq {batch batch' : AppearanceBatch} (h : chunk.Fills size batch)
    (h' : chunk.Fills size batch') (heq : batch.appearances = batch'.appearances) :
    batch = batch' := by
  obtain ⟨hrange, hname, -, hlast⟩ := h
  obtain ⟨hrange', hname', -, hlast'⟩ := h'
  cases batch
  cases batch'
  simp_all

/-- As many full batches that hold the same items are the same batches, with the same rest. -/
theorem full_inj (h : ∀ batch ∈ full, chunk.Fills size batch)
    (h' : ∀ batch ∈ full', chunk.Fills size batch) (hlength : full.length = full'.length)
    {more more' : List DecodedAppearance}
    (heq : Ingest.appearancesOf full ++ more = Ingest.appearancesOf full' ++ more') :
    full = full' ∧ more = more' := by
  induction full generalizing full' with
  | nil =>
    obtain rfl : full' = [] := List.eq_nil_of_length_eq_zero hlength.symm
    exact ⟨rfl, heq⟩
  | cons batch full ih =>
    obtain ⟨batch', full', rfl⟩ := List.exists_cons_of_length_eq_add_one hlength.symm
    have hfirst := h batch List.mem_cons_self
    have hfirst' := h' batch' List.mem_cons_self
    simp only [Ingest.appearancesOf, List.flatMap_cons, List.append_assoc] at heq
    obtain ⟨hsame, hrest⟩ := List.append_inj heq (hfirst.2.2.1.trans hfirst'.2.2.1.symm)
    obtain ⟨rfl, rfl⟩ := ih (fun b hb => h b (List.mem_cons_of_mem _ hb))
      (fun b hb => h' b (List.mem_cons_of_mem _ hb)) (Nat.succ.inj hlength) hrest
    exact ⟨by rw [hfirst.eq hfirst' hsame], rfl⟩

/-- There is one way for the items of a chunk to travel. -/
theorem Portions.unique (h : chunk.Portions size items full last)
    (h' : chunk.Portions size items full' last') : full = full' ∧ last = last' := by
  have heq := h.items_eq.trans h'.items_eq.symm
  simp only [Ingest.appearancesOf, List.flatMap_append, List.flatMap_singleton] at heq
  obtain ⟨rfl, hrest⟩ := full_inj h.full h'.full (h.length_full.trans h'.length_full.symm) heq
  obtain ⟨hrange, hname, -, hlast⟩ := h.last
  obtain ⟨hrange', hname', -, hlast'⟩ := h'.last
  refine ⟨rfl, ?_⟩
  cases last
  cases last'
  simp_all

end ChunkEntry

namespace Producer

def isDecoding : Producer → Bool
  | decoding _ _ | sending _ _ _ => true
  | _ => false

end Producer

namespace Ingest

variable {s t u : Ingest} {chunk : ChunkEntry} {chunks : List ChunkEntry} {events more : List Event}

/-- No decode is under way unless a chunk file is opened for one. -/
theorem Transition.isDecoding_eq {move : IngestMove} {delivery : Option Delivery}
    (h : t.Transition move delivery u) (hd : t.producer.isDecoding = false)
    (ho : Event.opened? ⟨t, move, delivery, u⟩ = none) : u.producer.isDecoding = false := by
  cases h with
  | list =>
    unfold listChunks
    split <;> rfl
  | @next left hl =>
    cases left with
    | nil => rfl
    | cons chunk left => simp [Event.opened?, hl] at ho
  | receive _ hl | decode _ hl | decodeOn _ hl =>
    rw [hl] at hd
    cases hd
  | send hl =>
    cases hp : t.producer with
    | sending =>
      rw [hp] at hd
      cases hd
    | completing | failing =>
      rw [hp] at hl
      cases hl
      rfl
    | _ =>
      rw [hp] at hl
      cases hl
  | giveUp => rfl
  | @record failed f =>
    obtain ⟨g, hg⟩ := t.exists_failing failed f
    rw [hg]
    rfl
  | take | abandon => exact hd

/-- Nothing is received any more when no decode is under way and no chunk file is opened. -/
theorem receivedIn_eq_nil (h : Trail Ingest.step t more u) (hd : t.producer.isDecoding = false)
    (ho : openedChunks more = []) : receivedIn more = [] ∧ u.producer.isDecoding = false := by
  induction h with
  | start => exact ⟨rfl, hd⟩
  | @step more u v move delivery _ hs ih =>
    rw [openedChunks_append, openedChunks_single, List.append_eq_nil_iff] at ho
    obtain ⟨hnone, hu⟩ := ih ho.1
    have hreceived : Event.received? ⟨u, move, delivery, v⟩ = none := by
      refine received?_eq_none fun work left hdecoding => ?_
      rw [hdecoding] at hu
      cases hu
    refine ⟨by simp [hnone, hreceived], (transition_of_step hs).isDecoding_eq hu ?_⟩
    simpa using ho.2

theorem received_inj {items items' : List DecodedAppearance}
    (h : items.map Received.appearance ++ [.finished] = items'.map .appearance ++ [.finished]) :
    items = items' :=
  List.map_injective_iff.mpr (fun _ _ => Received.appearance.inj) (List.append_cancel_right h)

theorem appearances_ne {items items' : List DecodedAppearance} :
    items.map Received.appearance ≠ items'.map .appearance ++ [.finished] := by
  intro h
  have hmem : Received.finished ∈ items.map Received.appearance := by simp [h]
  simp at hmem

/-- What was sent when all that a chunk declares was received, and the end. -/
theorem Stage.portions {items : List DecodedAppearance} {sent : List Delivery}
    {producer : Producer}
    (h : s.Stage chunk chunks [chunk] (items.map .appearance ++ [.finished]) sent producer)
    (hc : s.Clean chunk (items.map .appearance ++ [.finished])) :
    ∃ full last, chunk.Portions s.settings.batchSize.val items full last ∧
      (producer = .completing last chunks ∧ sent = asDeliveries full ∨
        producer.isAtWork = false ∧ sent = asDeliveries (full ++ [last])) := by
  generalize hreceived : items.map Received.appearance ++ [.finished] = received at h hc
  cases h with
  | decoding | sending => exact absurd hreceived.symm appearances_ne
  | completing _ hb =>
    obtain rfl := received_inj hreceived
    obtain ⟨full, last, heq, hportions⟩ := hb.portions
    obtain ⟨rfl, hlast⟩ := List.append_inj' heq rfl
    cases hlast
    exact ⟨_, _, hportions, .inl ⟨rfl, rfl⟩⟩
  | sent _ hb =>
    obtain rfl := received_inj hreceived
    obtain ⟨full, last, rfl, hportions⟩ := hb.portions
    exact ⟨full, last, hportions, .inr ⟨rfl, rfl⟩⟩
  | ended _ hb =>
    obtain rfl := received_inj hreceived
    obtain ⟨full, last, rfl, hportions⟩ := hb.portions
    exact ⟨full, last, hportions, .inr ⟨rfl, rfl⟩⟩
  | recording _ hn | failing _ hn | failed _ hn => exact absurd hc hn
  | aborted => simp at hreceived

/-- When a decode has given as many appearances as its chunk declares, and the end, they are sent
in batches, all full but the last: by now all but the last, or all of them. -/
theorem batches_of_received (h : s.WorksOn chunk chunks events t) {first : DecodeStream}
    (hstart : ChunkInProgress.start s.settings s.files chunk = .started first)
    {items : List DecodedAppearance}
    (hreceived : receivedIn events = items.map .appearance ++ [.finished])
    (hcount : items.length = first.chunk.header.appearanceCount.toNat) :
    ∃ full last, chunk.Portions s.settings.batchSize.val items full last ∧
      (t.producer = .completing last chunks ∧
          Trail.outputs events ++ t.queue = s.queue ++ asDeliveries full ∨
        t.producer.isAtWork = false ∧
          Trail.outputs events ++ t.queue = s.queue ++ asDeliveries (full ++ [last])) ∧
      ∃ more u, Trail Ingest.step t more u ∧ s.WorksOn chunk chunks (events ++ more) u ∧
        u.producer.isAtWork = false ∧
        Trail.outputs (events ++ more) ++ u.queue = s.queue ++ asDeliveries (full ++ [last]) := by
  have hclean : s.Clean chunk (items.map .appearance ++ [.finished]) :=
    ⟨first, items, hstart, rfl, hcount⟩
  obtain ⟨sent, hsent, hstage⟩ := h.stage
  rw [hreceived] at hstage
  obtain ⟨full, last, hportions, hnow⟩ := hstage.portions hclean
  have hdecoding : t.producer.isDecoding = false := by
    rcases hnow with ⟨hp, -⟩ | ⟨hp, -⟩
    · rw [hp]
      rfl
    · cases htp : t.producer with
      | decoding | sending =>
        rw [htp] at hp
        cases hp
      | _ => rfl
  obtain ⟨more, u, hmore, hu, hdone⟩ := h.exists_done
  obtain ⟨sent', hsent', hstage'⟩ := hu.stage
  have ho : openedChunks more = [] := by
    have hopened := hu.opened
    rwa [openedChunks_append, h.opened, List.append_right_eq_self] at hopened
  rw [receivedIn_append, (receivedIn_eq_nil hmore hdecoding ho).1, List.append_nil,
    hreceived] at hstage'
  obtain ⟨full', last', hportions', hthen⟩ := hstage'.portions hclean
  obtain ⟨rfl, rfl⟩ := hportions.unique hportions'
  refine ⟨full, last, hportions, ?_, more, u, hmore, hu, hdone, ?_⟩
  · rcases hnow with ⟨hp, rfl⟩ | ⟨hp, rfl⟩
    · exact .inl ⟨hp, hsent⟩
    · exact .inr ⟨hp, hsent⟩
  · rcases hthen with ⟨hp, -⟩ | ⟨-, rfl⟩
    · rw [hp] at hdone
      cases hdone
    · exact hsent'

/-! ## A chunk of four appearances, two in a batch -/

/-- One address has three appearances, the other one. -/
def pairedBytes : Bytes :=
  tableBytes [⟨.ofNat 1, 0, 3⟩, ⟨.ofNat 2, 3, 1⟩] [⟨20, 1⟩, ⟨22, 0⟩, ⟨27, 4⟩, ⟨21, 9⟩]

def pairedItems : List DecodedAppearance :=
  [⟨.ofNat 1, ⟨20, 1⟩⟩, ⟨.ofNat 1, ⟨22, 0⟩⟩, ⟨.ofNat 1, ⟨27, 4⟩⟩, ⟨.ofNat 2, ⟨21, 9⟩⟩]

theorem start_pairedBytes :
    ∃ first, ChunkInProgress.start twoByTwo (loneFiles pairedBytes) loneEntry = .started first ∧
      pairedItems.length = first.chunk.header.appearanceCount.toNat := by
  have hstarts : (match ChunkInProgress.start twoByTwo (loneFiles pairedBytes) loneEntry with
      | .started first => decide (pairedItems.length = first.chunk.header.appearanceCount.toNat)
      | _ => false) = true := by decide +kernel
  split at hstarts
  · next first hstart => exact ⟨first, hstart, of_decide_eq_true hstarts⟩
  · cases hstarts

/-- Two batches are full, so the last one is empty. -/
theorem batches_of_four :
    ∃ events t full last, (loneIngest pairedBytes).WorksOn loneEntry [] events t ∧
      receivedIn events = pairedItems.map .appearance ++ [.finished] ∧
      loneEntry.Portions 2 pairedItems full last ∧ full.length = 2 ∧ last.appearances = [] ∧
      Trail.outputs events ++ t.queue = asDeliveries (full ++ [last]) := by
  have hrun : ((loneRun pairedBytes).2.abandoned = false ∧
      openedChunks (loneRun pairedBytes).1 = [loneEntry]) ∧
      receivedIn (loneRun pairedBytes).1 = pairedItems.map .appearance ++ [.finished] ∧
      (loneRun pairedBytes).2.producer.isAtWork = false := by
    decide +kernel
  obtain ⟨⟨ha, ho⟩, hreceived, hdone⟩ := hrun
  have hworks := worksOn_loneRun ha ho
  obtain ⟨first, hstart, hcount⟩ := start_pairedBytes
  obtain ⟨full, last, hportions, hsent, -⟩ := batches_of_received hworks hstart hreceived hcount
  have hlast : last.appearances.length = 0 := hportions.last.2.2.1
  refine ⟨_, _, full, last, hworks, hreceived, hportions, hportions.length_full,
    List.eq_nil_of_length_eq_zero hlast, ?_⟩
  rcases hsent with ⟨hp, -⟩ | ⟨-, hsent⟩
  · rw [hp] at hdone
    cases hdone
  · exact hsent

end Ingest

end AppearanceIndex
