import AppearanceIndex.Chunk.Builder
import AppearanceIndex.Proofs.Decode.Failures
import AppearanceIndex.Proofs.Decode.Fairness

/-!
# How a decode ends

A consumer receives appearances, then at most one thing that ends them, then nothing but the end
again. `DecodeStream.EndsAs` lists the three ways in which a stream ends and what each says about
the course: a reported failure, a cancellation from outside, or a complete delivery.
-/

namespace AppearanceIndex

def Received.appearance? : Received → Option DecodedAppearance
  | appearance d => some d
  | _ => none

namespace DecodeHistory

/-- The appearances that the consumer took, as it received them. -/
def items (history : DecodeHistory) : List Received :=
  history.taken.map fun sent => .appearance sent.decoded

/-- What ended the stream for its consumer: the first it received that is no appearance. -/
def ending (history : DecodeHistory) : Option Received :=
  history.received.find? (·.appearance?.isNone)

theorem items_append (h k : DecodeHistory) : items (h ++ k) = items h ++ items k := by
  simp [items]

theorem find?_items (history : DecodeHistory) :
    history.items.find? (·.appearance?.isNone) = none := by
  rw [List.find?_eq_none]
  intro r hr
  obtain ⟨sent, -, rfl⟩ := List.mem_map.mp hr
  simp [Received.appearance?]

end DecodeHistory

namespace DecodeStream

/-- The ways in which a stream that began as `s` and has come to `t` ends for its consumer. -/
inductive EndsAs (chunk : OpenChunk) (maxWorkers : Positive) (history : DecodeHistory)
    (t : DecodeStream) : Received → Prop where
  | failed {i : Nat} {f : Failure} (hf : (i, f) ∈ history.reports) (hx : t.cancelled = true) :
      EndsAs chunk maxWorkers history t (.failure f)
  | cancelled (hc : t.closed = true) (hn : history.failures = []) (hx : t.cancelled = true)
      (he : history.cancelledEarly = true) :
      EndsAs chunk maxWorkers history t (.failure (.ofError .cancelled))
  | complete (hc : t.closed = true) (hn : history.failures = [])
      (he : history.cancelledEarly = false)
      (hi : Sent.Interleave history.taken (chunk.sequences maxWorkers))
      (ha : ∀ shard ∈ chunk.shards maxWorkers, (chunk.decodeShard shard).2 = none) :
      EndsAs chunk maxWorkers history t .finished

theorem Transition.cancelled_mono {s t : DecodeStream} {move : DecodeMove}
    {received : Option Received} (h : s.Transition move received t) (hx : s.cancelled = true) :
    t.cancelled = true := by
  cases h with
  | work hw hn => simp [hx]
  | pollError | takeError | cancel | drain | abandon => rfl
  | _ => exact hx

theorem Transition.closed_mono {s t : DecodeStream} {move : DecodeMove}
    {received : Option Received} (h : s.Transition move received t) (hc : s.closed = true) :
    t.closed = true := by
  cases h with
  | work hw hn => simpa using hc
  | close => rfl
  | _ => exact hc

/-- After the end, a move takes nothing and counts for no cancellation before the end. -/
theorem Transition.after_finished {s t : DecodeStream} {move : DecodeMove}
    {received : Option Received} (h : s.Transition move received t) (hf : s.finished = true) :
    t.finished = true ∧ DecodeEvent.taken ⟨s, move, received, t⟩ = [] ∧
      DecodeEvent.cancels ⟨s, move, received, t⟩ = false ∧
      (received = none ∨ received = some .finished) := by
  cases h with
  | work hw hn => exact ⟨by simpa using hf, rfl, rfl, .inl rfl⟩
  | pollEnd => exact ⟨hf, rfl, rfl, .inr rfl⟩
  | cancel => exact ⟨hf, rfl, by simp [DecodeEvent.cancels, hf], .inl rfl⟩
  | close | drain | discard | abandon => exact ⟨hf, rfl, rfl, .inl rfl⟩
  | pollError _ hf' | pollNothing _ hf' | takeItem _ hf' | takeNothing _ hf' =>
    rw [hf] at hf'
    cases hf'
  | takeError _ hf' | takeCancelled _ hf' | takeEnd _ hf' =>
    rw [hf] at hf'
    cases hf'

/-- Once the output is closed, nobody fails any more. -/
theorem Transition.failed_of_closed {s t : DecodeStream} {move : DecodeMove}
    {received : Option Received} {history : DecodeHistory} (h : s.Transition move received t)
    (ha : s.Accounted history) (hc : s.closed = true) :
    DecodeEvent.failed ⟨s, move, received, t⟩ = [] := by
  cases h with
  | work hw hn =>
    rw [ha.not_closed_of_work hw hn] at hc
    cases hc
  | _ => rfl

variable {chunk : OpenChunk} {maxWorkers capacity : Positive} {history : DecodeHistory}
  {t : DecodeStream}

/-- The way in which a stream ended stays what it is. -/
theorem EndsAs.step {u : DecodeStream} {ending : Received} {move : DecodeMove}
    {received : Option Received} (h : EndsAs chunk maxWorkers history t ending)
    (ht : t.Transition move received u) (hf : t.finished = true) (ha : t.Accounted history) :
    EndsAs chunk maxWorkers (history ++ [⟨t, move, received, u⟩]) u ending := by
  obtain ⟨-, htaken, hcancels, -⟩ := ht.after_finished hf
  cases h with
  | @failed i f hr hx =>
    refine .failed (i := i) ?_ (ht.cancelled_mono hx)
    rw [DecodeHistory.reports_append]
    exact List.mem_append_left _ hr
  | cancelled hc hn hx he =>
    refine .cancelled (ht.closed_mono hc) ?_ (ht.cancelled_mono hx) (by simp [he])
    simp [hn, ht.failed_of_closed ha hc]
  | complete hc hn he hi hall =>
    refine .complete (ht.closed_mono hc) ?_ (by simp [he, hcancels]) ?_ hall
    · simp [hn, ht.failed_of_closed ha hc]
    · simpa [htaken] using hi

theorem Accounted.failures_eq_nil {s : DecodeStream} (h : s.Accounted history)
    (hf : s.finished = false) (hc : s.closed = true) (he : s.errors = []) :
    history.failures = [] := by
  refine Classical.byContradiction fun hne => ?_
  rcases h.pending hne hf with herr | ⟨i, worker, f, hw, hp⟩
  · exact herr he
  · rw [phase_of_allEnded (h.closed hc) (List.mem_of_getElem? hw)] at hp
    cases hp

/-- When the output is at its end and the token is not cancelled, every worker sent everything. -/
theorem complete_of_takeEnd (h : (ofChunk chunk maxWorkers capacity).Course history t)
    (hr : t.isReceiving = true) (ho : t.output = []) (hc : t.closed = true)
    (hx : t.cancelled = false) :
    ∀ i shard, (chunk.shards maxWorkers)[i]? = some shard →
      chunk.decodeShard shard = (Sent.from_ i history.taken, none) := by
  intro i shard hi
  obtain ⟨phase, hw⟩ := shard_of_worker h hi
  have hsent := h.keepsCount hr i _ hw
  have hended : phase = .ended :=
    phase_of_allEnded (h.accounted.closed hc) (List.mem_of_getElem? hw)
  rw [ho, List.append_nil, h.chunk_eq, hx, hended] at hsent
  rcases hsent with heq | ⟨hx', -⟩
  · exact heq
  · cases hx'

theorem endsAs_complete (h : (ofChunk chunk maxWorkers capacity).Course history t)
    (hr : t.isReceiving = true) (hf : t.finished = false) (ho : t.output = [])
    (hc : t.closed = true) (he : t.errors = []) (hx : t.cancelled = false) :
    EndsAs chunk maxWorkers history t .finished := by
  have hall := complete_of_takeEnd h hr ho hc hx
  refine .complete hc (h.accounted.failures_eq_nil hf hc he) ?_ ⟨?_, ?_⟩ ?_
  · cases hearly : history.cancelledEarly with
    | false => rfl
    | true =>
      rw [h.accounted.early hearly] at hx
      cases hx
  · exact h.taken_interleavePrefixes.1
  · intro i sequence hi
    rw [OpenChunk.sequences, List.getElem?_map, Option.map_eq_some_iff] at hi
    obtain ⟨shard, hshard, rfl⟩ := hi
    rw [hall i shard hshard]
  · intro shard hmem
    obtain ⟨i, hi⟩ := List.getElem?_of_mem hmem
    rw [hall i shard hi]

/-- What was received so far: appearances, and after the end nothing but the end. -/
theorem Course.received_eq (h : (ofChunk chunk maxWorkers capacity).Course history t) :
    (t.finished = false ∧ history.received = history.items) ∨
      (t.finished = true ∧ ∃ ending n,
        history.received = history.items ++ ending :: List.replicate n .finished ∧
          EndsAs chunk maxWorkers history t ending) := by
  refine h.induct (P := fun history t => (t.finished = false ∧ history.received = history.items) ∨
      (t.finished = true ∧ ∃ ending n,
        history.received = history.items ++ ending :: List.replicate n .finished ∧
          EndsAs chunk maxWorkers history t ending)) (.inl ⟨rfl, rfl⟩) ?_
  intro history t u move received hc ih ht
  have hacc := hc.accounted
  have hacc' := hacc.step ht
  rcases ih with ⟨hf, heq⟩ | ⟨hf, ending, n, heq, hend⟩
  · -- the end was not received before this move
    have hitems : ∀ e : DecodeEvent, e.taken = [] →
        DecodeHistory.items (history ++ [e]) = history.received := by
      intro e he
      rw [DecodeHistory.items_append, heq]
      simp [DecodeHistory.items, he]
    cases ht with
    | pollEnd _ hf' =>
      rw [hf] at hf'
      cases hf'
    | @pollError f errors hr _ he =>
      refine .inr ⟨rfl, .failure f, 0, by rw [hitems _ rfl]; simp, ?_⟩
      obtain ⟨i, hi⟩ := hacc.errors _ (he ▸ List.mem_cons_self)
      refine .failed (i := i) ?_ rfl
      rw [DecodeHistory.reports_append]
      exact List.mem_append_left _ hi
    | @takeError f errors hr _ ho hcl he =>
      refine .inr ⟨rfl, .failure f, 0, by rw [hitems _ rfl]; simp, ?_⟩
      obtain ⟨i, hi⟩ := hacc.errors _ (he ▸ List.mem_cons_self)
      refine .failed (i := i) ?_ rfl
      rw [DecodeHistory.reports_append]
      exact List.mem_append_left _ hi
    | takeCancelled hr _ ho hcl he hx =>
      refine .inr ⟨rfl, .failure (.ofError .cancelled), 0, by rw [hitems _ rfl]; simp, ?_⟩
      have hnone := hacc.failures_eq_nil hf hcl he
      have hearly := (hacc.cancelled hr hf hx).resolve_left (fun h => h hnone)
      exact .cancelled hcl (by simp [hnone, DecodeEvent.failed]) hx (by simp [hearly])
    | takeEnd hr _ ho hcl he hx =>
      refine .inr ⟨rfl, .finished, 0, by rw [hitems _ rfl]; simp, ?_⟩
      cases endsAs_complete hc hr hf ho hcl he hx with
      | complete _ hn hearly hi hall =>
        exact .complete hcl (by simp [hn, DecodeEvent.failed])
          (by simp [hearly, DecodeEvent.cancels]) (by simpa [DecodeEvent.taken] using hi) hall
    | @takeItem sent output hr _ ho =>
      refine .inl ⟨hf, ?_⟩
      rw [DecodeHistory.items_append, DecodeHistory.received_append, heq]
      simp [DecodeHistory.items, DecodeEvent.taken, ho]
    | work hw hn => exact .inl ⟨by simpa using hf, by rw [hitems _ rfl]; simp⟩
    | close | pollNothing | takeNothing | cancel | drain | discard | abandon =>
      exact .inl ⟨hf, by rw [hitems _ rfl]; simp⟩
  · -- it was: from now on there is only the end
    obtain ⟨hf', htaken, -, hreceived⟩ := ht.after_finished hf
    have hitems : DecodeHistory.items (history ++ [⟨t, move, received, u⟩]) = history.items := by
      rw [DecodeHistory.items_append]
      simp [DecodeHistory.items, htaken]
    refine .inr ⟨hf', ending, ?_⟩
    rw [hitems, DecodeHistory.received_append, DecodeHistory.received_single, heq]
    rcases hreceived with rfl | rfl
    · exact ⟨n, by simp, hend.step ht hf hacc⟩
    · exact ⟨n + 1, by simp [List.replicate_succ'], hend.step ht hf hacc⟩

/-! ## What a consumer can rely on -/

theorem ending_eq_none (h : history.received = history.items) : history.ending = none := by
  rw [DecodeHistory.ending, h]
  exact history.find?_items

theorem ending_eq_some {ending : Received} {n : Nat}
    (h : history.received = history.items ++ ending :: List.replicate n .finished)
    (he : EndsAs chunk maxWorkers history t ending) : history.ending = some ending := by
  rw [DecodeHistory.ending, h, List.find?_append, history.find?_items, Option.none_or]
  cases he <;> rfl

/-- What ended the stream is one of the ways in which it can end. -/
theorem Course.endsAs_of_ending (h : (ofChunk chunk maxWorkers capacity).Course history t)
    {ending : Received} (hending : history.ending = some ending) :
    EndsAs chunk maxWorkers history t ending := by
  rcases h.received_eq with ⟨-, heq⟩ | ⟨-, ending', n, heq, he⟩
  · rw [ending_eq_none heq] at hending
    cases hending
  · rw [ending_eq_some heq he, Option.some.injEq] at hending
    exact hending ▸ he

/-- No failure of a worker is a cancellation. -/
theorem Accounted.ne_cancelled {s : DecodeStream} (h : s.Accounted history) {i : Nat} {f : Failure}
    (hf : (i, f) ∈ history.reports) : f ≠ .ofError .cancelled := by
  rintro rfl
  exact h.known _ (h.reports _ hf) rfl

theorem filterMap_items (history : DecodeHistory) :
    history.items.filterMap Received.appearance? = history.taken.map Sent.decoded := by
  simp [DecodeHistory.items, List.filterMap_map, Function.comp_def, Received.appearance?]

/-- What the consumer received is what it took out of the output. -/
theorem Course.filterMap_received (h : (ofChunk chunk maxWorkers capacity).Course history t) :
    history.received.filterMap Received.appearance? = history.taken.map Sent.decoded := by
  rcases h.received_eq with ⟨-, heq⟩ | ⟨-, ending, n, heq, he⟩
  · rw [heq, filterMap_items]
  · rw [heq, List.filterMap_append, filterMap_items]
    cases he <;> simp [Received.appearance?]

/-- A consumer that received the end, and no failure before it, took everything. -/
theorem Course.interleave_of_finished (h : (ofChunk chunk maxWorkers capacity).Course history t)
    {before after : List Received} (hreceived : history.received = before ++ .finished :: after)
    (hnone : ∀ f, .failure f ∉ before) :
    Sent.Interleave history.taken (chunk.sequences maxWorkers) ∧
      ∀ shard ∈ chunk.shards maxWorkers, (chunk.decodeShard shard).2 = none := by
  have hfirst : history.ending = some .finished := by
    rw [DecodeHistory.ending, hreceived, List.find?_append]
    cases hb : before.find? (·.appearance?.isNone) with
    | none => rfl
    | some r =>
      have hmem := List.mem_of_find?_eq_some hb
      have hr := List.find?_some hb
      cases r with
      | appearance d => cases hr
      | failure f => exact absurd hmem (hnone f)
      | finished => rfl
  cases h.endsAs_of_ending hfirst with
  | complete _ _ _ hi ha => exact ⟨hi, ha⟩

/-- In every state of every course, what the consumer took from a worker is a prefix of what the
worker's shard decodes to; and when it receives the end without a failure before it, it took
everything from every worker. -/
theorem received_interleaves_of_course
    (h : (ofChunk chunk maxWorkers capacity).Course history t) :
    history.received.filterMap Received.appearance? = history.taken.map Sent.decoded ∧
      Sent.InterleavePrefixes history.taken (chunk.sequences maxWorkers) ∧
      ∀ before after, history.received = before ++ .finished :: after →
        (∀ f, .failure f ∉ before) →
        Sent.Interleave history.taken (chunk.sequences maxWorkers) ∧
          ∀ shard ∈ chunk.shards maxWorkers, (chunk.decodeShard shard).2 = none := by
  refine ⟨h.filterMap_received, h.taken_interleavePrefixes, ?_⟩
  intro before after hreceived hnone
  exact h.interleave_of_finished hreceived hnone

/-- A chunk of two addresses whose second span needs three appearances. -/
def shortChunk (apps : List Appearance) : OpenChunk :=
  let header : ChunkHeader :=
    ⟨ChunkHeader.chunkMagic, Vector.replicate 32 0, 2, UInt32.ofNat apps.length⟩
  let records : List AddressRecord := [⟨.ofNat 1, 0, 2⟩, ⟨.ofNat 2, 2, 1⟩]
  let bytes := header.toBytes ++ records.flatMap AddressRecord.toBytes ++
    apps.flatMap Appearance.toBytes
  ⟨.ofBytes bytes, ⟨0, 99⟩, ChunkHeader.ofBytes bytes⟩

/-- Two workers, the consumer and the supervisor take turns. -/
def takeTurns (n : Nat) : DecodeMove :=
  match n % 5 with
  | 0 => .poll
  | 1 => .take
  | 2 => .work 0
  | 3 => .work 1
  | _ => .close

theorem keepsReceiving_takeTurns : KeepsReceiving 2 takeTurns := by
  have hagain : ∀ k < 5, ∀ n, ∃ m, n ≤ m ∧ m % 5 = k :=
    fun k hk n => ⟨5 * n + k, by omega, by omega⟩
  have hturn : ∀ k < 5, ∀ move, takeTurns k = move → ∀ n, ∃ m, n ≤ m ∧ takeTurns m = move := by
    intro k hk move hmove n
    obtain ⟨m, hle, hm⟩ := hagain k hk n
    refine ⟨m, hle, ?_⟩
    rw [← hmove, takeTurns, takeTurns, hm, Nat.mod_eq_of_lt hk]
  refine ⟨?_, hturn 0 (by decide) _ rfl, hturn 1 (by decide) _ rfl, hturn 4 (by decide) _ rfl, ?_⟩
  · intro n
    unfold takeTurns
    split <;> simp
  · intro i hi
    match i, hi with
    | 0, _ => exact hturn 2 (by decide) _ rfl
    | 1, _ => exact hturn 3 (by decide) _ rfl

def sampleCourse (apps : List Appearance) : DecodeHistory × DecodeStream :=
  (ofChunk (shortChunk apps) ⟨2, by decide⟩ ⟨1, by decide⟩).follow takeTurns 60

theorem received_interleaves_two_workers :
    (sampleCourse [⟨10, 0⟩, ⟨12, 5⟩, ⟨11, 3⟩]).1.received =
        [⟨.ofNat 1, 10, 0⟩, ⟨.ofNat 1, 12, 5⟩, ⟨.ofNat 2, 11, 3⟩].map .appearance ++
          .finished :: [.finished, .finished] ∧
      Sent.Interleave (sampleCourse [⟨10, 0⟩, ⟨12, 5⟩, ⟨11, 3⟩]).1.taken
        ((shortChunk [⟨10, 0⟩, ⟨12, 5⟩, ⟨11, 3⟩]).sequences ⟨2, by decide⟩) := by
  have hreceived : (sampleCourse [⟨10, 0⟩, ⟨12, 5⟩, ⟨11, 3⟩]).1.received =
      [⟨.ofNat 1, 10, 0⟩, ⟨.ofNat 1, 12, 5⟩, ⟨.ofNat 2, 11, 3⟩].map .appearance ++
        .finished :: [.finished, .finished] := by
    decide +kernel
  have hall := (received_interleaves_of_course (course_follow _ takeTurns 60)).2.2 _ _ hreceived
  exact ⟨hreceived, (hall (by simp)).1⟩

/-! ## The terminal item -/

/-- The consumer received appearances, then what ended the stream, then nothing but the end. -/
theorem Course.received_shape (h : (ofChunk chunk maxWorkers capacity).Course history t) :
    ∃ (items : List DecodedAppearance) (n : Nat), history.received =
      items.map .appearance ++ history.ending.toList ++ List.replicate n .finished ∧
        (history.ending = none → n = 0) := by
  have hitems : history.items = (history.taken.map Sent.decoded).map .appearance := by
    simp [DecodeHistory.items]
  rcases h.received_eq with ⟨-, heq⟩ | ⟨-, ending, n, heq, he⟩
  · refine ⟨history.taken.map Sent.decoded, 0, ?_, fun _ => rfl⟩
    rw [ending_eq_none heq, heq, hitems]
    simp
  · refine ⟨history.taken.map Sent.decoded, n, ?_, ?_⟩
    · rw [ending_eq_some heq he, heq, hitems]
      simp
    · rw [ending_eq_some heq he]
      intro hnone
      cases hnone

/-- Where a worker failed, the stream ends with a failure that a worker reported. -/
theorem EndsAs.of_failures {ending : Received} (h : EndsAs chunk maxWorkers history t ending)
    (hacc : t.Accounted history) (hfail : history.failures ≠ []) :
    ∃ i f, (i, f) ∈ history.reports ∧ ending = .failure f ∧ f ≠ .ofError .cancelled := by
  cases h with
  | failed hr => exact ⟨_, _, hr, rfl, hacc.ne_cancelled hr⟩
  | cancelled _ hn => exact absurd hn hfail
  | complete _ hn => exact absurd hn hfail

/-- The stream ends with a cancellation exactly if nobody failed and somebody cancelled. -/
theorem EndsAs.eq_cancelled_iff {ending : Received} (h : EndsAs chunk maxWorkers history t ending)
    (hacc : t.Accounted history) :
    ending = .failure (.ofError .cancelled) ↔
      history.failures = [] ∧ history.cancelledEarly = true := by
  cases h with
  | failed hr =>
    constructor
    · intro heq
      exact absurd (Received.failure.inj heq) (hacc.ne_cancelled hr)
    · rintro ⟨hn, -⟩
      have hmem := hacc.reports _ hr
      rw [hn] at hmem
      cases hmem
  | cancelled _ hn _ hx => exact ⟨fun _ => ⟨hn, hx⟩, fun _ => rfl⟩
  | complete _ _ hx =>
    constructor
    · intro heq
      cases heq
    · rintro ⟨-, hx'⟩
      rw [hx] at hx'
      cases hx'

/-- A failure leaves a cancelled token. -/
theorem Course.cancelled_of_failure (h : (ofChunk chunk maxWorkers capacity).Course history t)
    {f : Failure} (hmem : .failure f ∈ history.received) : t.cancelled = true := by
  rcases h.received_eq with ⟨-, heq⟩ | ⟨-, ending, n, heq, he⟩
  · rw [heq] at hmem
    simp [DecodeHistory.items] at hmem
  · cases he with
    | failed _ hx => exact hx
    | cancelled _ _ hx => exact hx
    | complete =>
      rw [heq] at hmem
      simp [DecodeHistory.items] at hmem

/-- A consumer that keeps receiving receives the end. -/
theorem Course.eventually_ends (h : (ofChunk chunk maxWorkers capacity).Course history t)
    (hr : t.isReceiving = true) {schedule : Nat → DecodeMove}
    (hk : KeepsReceiving (chunk.shards maxWorkers).length schedule) :
    ∃ n, DecodeHistory.ending (history ++ (t.follow schedule n).1) ≠ none := by
  have hlen : t.workers.length = (chunk.shards maxWorkers).length := by
    rw [← h.planned, List.length_map]
  obtain ⟨n, hn⟩ := eventually_finished (hlen ▸ hk) hr
  have hn : (t.follow schedule n).2.finished = true := hn
  refine ⟨n, ?_⟩
  rcases (h.trans (course_follow t schedule n)).received_eq with ⟨hf, -⟩ | ⟨-, ending, k, heq, he⟩
  · rw [hn] at hf
    cases hf
  · rw [ending_eq_some heq he]
    exact Option.some_ne_none _

/-- In every course, the consumer receives at most one failure and after it, or after the end, only
the end; a failure of a worker is not hidden by the end or by a cancellation; a cancellation is
reported exactly if no worker failed; a failure leaves a cancelled token; and a consumer that keeps
receiving does receive the end. -/
theorem ending_of_course (h : (ofChunk chunk maxWorkers capacity).Course history t) :
    (∃ (items : List DecodedAppearance) (n : Nat), history.received =
        items.map .appearance ++ history.ending.toList ++ List.replicate n .finished ∧
          (history.ending = none → n = 0)) ∧
      (history.failures ≠ [] → ∀ ending, history.ending = some ending →
        ∃ i f, (i, f) ∈ history.reports ∧ ending = .failure f ∧ f ≠ .ofError .cancelled) ∧
      (∀ ending, history.ending = some ending →
        (ending = .failure (.ofError .cancelled) ↔
          history.failures = [] ∧ history.cancelledEarly = true)) ∧
      (∀ f, .failure f ∈ history.received → t.cancelled = true) ∧
      (t.isReceiving = true → ∀ schedule,
        KeepsReceiving (chunk.shards maxWorkers).length schedule →
          ∃ n, DecodeHistory.ending (history ++ (t.follow schedule n).1) ≠ none) := by
  have hacc := h.accounted
  refine ⟨h.received_shape, ?_, ?_, ?_, ?_⟩
  · intro hfail ending hending
    exact (h.endsAs_of_ending hending).of_failures hacc hfail
  · intro ending hending
    exact (h.endsAs_of_ending hending).eq_cancelled_iff hacc
  · intro f hmem
    exact h.cancelled_of_failure hmem
  · intro hr schedule hk
    exact h.eventually_ends hr hk

theorem ending_of_failing_worker :
    (sampleCourse [⟨10, 0⟩, ⟨12, 5⟩]).1.failures ≠ [] ∧
      (∃ i f, (i, f) ∈ (sampleCourse [⟨10, 0⟩, ⟨12, 5⟩]).1.reports ∧
        (sampleCourse [⟨10, 0⟩, ⟨12, 5⟩]).1.ending = some (.failure f)) ∧
      ∃ n, DecodeHistory.ending
        ((ofChunk (shortChunk [⟨10, 0⟩]) ⟨2, by decide⟩ ⟨1, by decide⟩).follow takeTurns n).1 ≠
          none := by
  have hfailures : (sampleCourse [⟨10, 0⟩, ⟨12, 5⟩]).1.failures ≠ [] := by decide +kernel
  have hsome : (sampleCourse [⟨10, 0⟩, ⟨12, 5⟩]).1.ending.isSome = true := by decide +kernel
  obtain ⟨ending, hending⟩ := Option.isSome_iff_exists.mp hsome
  obtain ⟨-, hfail, -⟩ := ending_of_course (course_follow _ takeTurns 60)
  obtain ⟨i, f, hreport, rfl, -⟩ := hfail hfailures ending hending
  refine ⟨hfailures, ⟨i, f, hreport, hending⟩, ?_⟩
  have hstart : (ofChunk (shortChunk [⟨10, 0⟩]) ⟨2, by decide⟩ ⟨1, by decide⟩).Course []
      (ofChunk (shortChunk [⟨10, 0⟩]) ⟨2, by decide⟩ ⟨1, by decide⟩) := .start
  obtain ⟨-, -, -, -, hends⟩ := ending_of_course hstart
  exact hends rfl takeTurns keepsReceiving_takeTurns

end DecodeStream

end AppearanceIndex
