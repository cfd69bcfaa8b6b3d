import AppearanceIndex.Proofs.Decode.Ending

/-!
# Undisturbed decodes

A consumer that only looks at the errors and takes from the output, in a decode that nobody cancels
(`DecodeHistory.Undisturbed`), is still receiving at every moment, and if every shard decodes
without failure it receives no failure.
-/

namespace AppearanceIndex

/-- The move cancels the token or is one of a consumer that stops receiving. -/
def DecodeMove.disturbs : DecodeMove → Bool
  | .work _ | .close | .poll | .take => false
  | .cancel | .drain | .discard | .abandon => true

/-- Nobody cancelled, and the consumer went on receiving. -/
def DecodeHistory.Undisturbed (history : DecodeHistory) : Prop :=
  ∀ e ∈ history, e.move.disturbs = false

namespace DecodeStream

variable {chunk : OpenChunk} {maxWorkers capacity : Positive} {history : DecodeHistory}
  {s t u : DecodeStream}

theorem Transition.isReceiving_eq {move : DecodeMove} {received : Option Received}
    (h : t.Transition move received u) (hm : move.disturbs = false) :
    u.isReceiving = t.isReceiving := by
  cases h with
  | work hw hn => exact isReceiving_withEffect ..
  | cancel | drain | discard | abandon => cases hm
  | _ => rfl

theorem Course.isReceiving_eq (h : s.Course history t) (hu : history.Undisturbed) :
    t.isReceiving = s.isReceiving := by
  refine h.induct (P := fun history t => history.Undisturbed → t.isReceiving = s.isReceiving)
    (fun _ => rfl) ?_ hu
  intro history t u move received _ ih ht hu
  have hmove : move.disturbs = false := hu _ (List.mem_append_right _ (List.mem_singleton_self _))
  rw [ht.isReceiving_eq hmove]
  exact ih fun e he => hu e (List.mem_append_left _ he)

theorem cancelledEarly_of_undisturbed (hu : history.Undisturbed) :
    history.cancelledEarly = false := by
  unfold DecodeHistory.cancelledEarly
  rw [List.any_eq_false]
  intro e he hcancels
  have hmove := hu e he
  unfold DecodeEvent.cancels at hcancels
  rw [Bool.and_eq_true, decide_eq_true_eq] at hcancels
  rw [hcancels.1] at hmove
  cases hmove

/-- The shard of a worker is one of the chunk's. -/
theorem Course.mem_shards (h : (ofChunk chunk maxWorkers capacity).Course history t)
    {worker : Worker} (hw : worker ∈ t.workers) : worker.shard ∈ chunk.shards maxWorkers := by
  rw [← h.planned]
  exact List.mem_map_of_mem hw

/-- A worker fails as its shard does. -/
theorem Course.shard_failed (h : (ofChunk chunk maxWorkers capacity).Course history t)
    (hu : history.Undisturbed) : ∀ failure ∈ history.failures,
      ∃ shard ∈ chunk.shards maxWorkers, (chunk.decodeShard shard).2 = some failure.2 := by
  refine h.induct (P := fun history _ => history.Undisturbed → ∀ failure ∈ history.failures,
    ∃ shard ∈ chunk.shards maxWorkers, (chunk.decodeShard shard).2 = some failure.2)
    (fun _ _ hmem => nomatch hmem) ?_ hu
  intro history t u move received hc ih ht hu failure hmem
  have hbefore : history.Undisturbed := fun e he => hu e (List.mem_append_left _ he)
  rw [DecodeHistory.failures_append, DecodeHistory.failures_single] at hmem
  rcases List.mem_append.mp hmem with hmem | hmem
  · exact ih hbefore failure hmem
  cases ht with
  | @work i worker phase effect hw hn =>
    have hreceiving : t.isReceiving = true := hc.isReceiving_eq hbefore
    have hcount := keepsCount_work (hc.keepsCount hreceiving) hreceiving hw hn
    have hworked := worked_of_next hw hn
    obtain ⟨-, rfl⟩ := (mem_failed_work hworked).mp hmem
    -- a worker that fails has come to the failure of its shard
    have hsent := hcount i _ hworked.after
    rw [chunk_withEffect] at hsent
    have hchunk : t.chunk = chunk := hc.chunk_eq
    obtain ⟨items, hshard⟩ :
        ∃ items, chunk.decodeShard worker.shard = (items, some failure.2) := by
      rw [← hchunk]
      exact ⟨_, hsent⟩
    exact ⟨worker.shard, hc.mem_shards (List.mem_of_getElem? hw), by rw [hshard]⟩
  | _ => cases hmem

/-- Where no shard fails, no worker does. -/
theorem Course.failures_eq_nil (h : (ofChunk chunk maxWorkers capacity).Course history t)
    (hu : history.Undisturbed)
    (hall : ∀ shard ∈ chunk.shards maxWorkers, (chunk.decodeShard shard).2 = none) :
    history.failures = [] := by
  refine List.eq_nil_iff_forall_not_mem.mpr fun failure hmem => ?_
  obtain ⟨shard, hshard, hfailed⟩ := h.shard_failed hu failure hmem
  rw [hall shard hshard] at hfailed
  cases hfailed

/-- Where no shard fails, the consumer receives no failure. -/
theorem Course.no_failure (h : (ofChunk chunk maxWorkers capacity).Course history t)
    (hu : history.Undisturbed)
    (hall : ∀ shard ∈ chunk.shards maxWorkers, (chunk.decodeShard shard).2 = none) (f : Failure) :
    .failure f ∉ history.received := by
  intro hmem
  have hitems : Received.failure f ∉ history.items := by simp [DecodeHistory.items]
  rcases h.received_eq with ⟨-, heq⟩ | ⟨-, ending, n, heq, he⟩
  · rw [heq] at hmem
    exact hitems hmem
  · rw [heq] at hmem
    rcases List.mem_append.mp hmem with hmem | hmem
    · exact hitems hmem
    · rcases List.mem_cons.mp hmem with heq | hmem
      · subst heq
        cases he with
        | failed hf _ =>
          have hfailed := h.accounted.reports _ hf
          rw [h.failures_eq_nil hu hall] at hfailed
          cases hfailed
        | cancelled _ _ _ he =>
          rw [cancelledEarly_of_undisturbed hu] at he
          cases he
      · cases (List.mem_replicate.mp hmem).2

end DecodeStream

end AppearanceIndex
