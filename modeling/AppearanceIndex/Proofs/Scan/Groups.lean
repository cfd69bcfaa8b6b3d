import AppearanceIndex.Proofs.Scan.Determined

/-!
# Groups of appearances

The output of a scan is made of whole groups: all appearances of one name, then all of another, in
the order in which the extractor searched their chunks. After the last group the output ends, or
gives one failure and ends then. This holds in every order of the moves.

The invariant has two parts. `Scan.Grouped` says what the extractor has sent after it searched
certain names; within a group it knows what is left of it. `Scan.Served` says that the names it
searched, and the hits that wait, are those that the tasks have sent, so that none is searched
twice.
-/

namespace AppearanceIndex

namespace Scan

/-- The name that the extractor has taken and not searched yet. -/
def inHand : Extractor → List String
  | .searching name => [name]
  | _ => []

section Source

variable (s : Scan)

/-- Why the extractor stops behind the groups of some names: a failure came among the hits, or the
chunk of one more name cannot be searched. -/
inductive Halts (searched names : List String) (f : Failure) : Prop where
  | blamed (hn : searched = names) (hb : s.Blames f)
  | unsearchable {name : String} (hn : searched = names ++ [name]) (hf : s.found name = .error f)

/-- What the extractor has sent when it has searched the chunks of certain names. -/
inductive Grouped (searched : List String) : List (Except Failure Appearance) → Extractor → Prop
  where
  | receiving (hs : s.Searchable searched) : Grouped searched (s.told searched) .receiving
  | searching {name : String} (hs : s.Searchable searched) :
      Grouped searched (s.told searched) (.searching name)
  | sending {names : List String} {name : String} {apps rest : List Appearance}
      (hn : searched = names ++ [name]) (hs : s.Searchable names)
      (hf : s.found name = .ok (apps ++ rest)) :
      Grouped searched (s.told names ++ apps.map .ok) (.sending rest)
  | failing {names : List String} {f : Failure} (hs : s.Searchable names)
      (hf : s.Halts searched names f) : Grouped searched (s.told names) (.failing f)
  | complete (hs : s.Searchable searched) : Grouped searched (s.told searched) .ended
  | failed {names : List String} {f : Failure} (hs : s.Searchable names)
      (hf : s.Halts searched names f) : Grouped searched (s.told names ++ [.error f]) .ended

/-- The names that were searched are, with the one in hand and those that wait, the names that were
sent into the hits. -/
structure Served (queued : List (Except Failure String)) (searched : List String) (t : Scan) :
    Prop where
  taken : t.extractorEnded = false →
    hitNames queued = searched ++ inHand t.extractor ++ hitNames t.hits
  once : ∃ rest, (searched ++ rest).Perm s.positives

end Source

variable {s t u : Scan} {queued : List (Except Failure String)}
  {received : List (Except Failure Appearance)} {searched : List String} {events more : List Event}

/-! ## Moves of the extractor -/

theorem told_append (names : List String) {name : String} {apps : List Appearance}
    (hf : s.found name = .ok apps) :
    s.told (names ++ [name]) = s.told names ++ apps.map .ok := by
  simp [told, appearances, hf, Except.toOption]

theorem Searchable.append {names : List String} (hs : s.Searchable names) {name : String}
    {apps : List Appearance} (hf : s.found name = .ok apps) : s.Searchable (names ++ [name]) := by
  intro other hmem
  rcases List.mem_append.mp hmem with hmem | hmem
  · exact hs other hmem
  · rw [List.mem_singleton.mp hmem]
    exact ⟨apps, hf⟩

/-- A failure that waits among the hits is to blame on the source. -/
theorem Stands.blames_of_waiting {emitted : List (Except Failure Appearance)}
    (h : s.Stands queued emitted t) (he : t.extractor = .receiving) {f : Failure}
    (hf : .error f ∈ t.hits) : s.Blames f := by
  have hextractor := h.extractor
  rw [he] at hextractor
  cases hextractor with
  | receiving hs hq => exact h.blamed f (hq ▸ List.mem_append_right _ hf)

/-- A move of the extractor keeps its groups whole. -/
theorem Grouped.extractorMove (hg : s.Grouped searched (received ++ t.output) t.extractor)
    (h : s.Stands queued (received ++ t.output) t) (ha : t.abandoned = false)
    (ht : t.Transition .extract none u) :
    s.Grouped (searched ++ inHand t.extractor) (received ++ u.output) u.extractor := by
  generalize hemitted : received ++ t.output = emitted at hg
  cases ht with
  | @takeHit name hits he hh =>
    rw [he] at hg ⊢
    simp only [inHand, List.append_nil, hemitted]
    cases hg with
    | receiving hs => exact .searching hs
  | @takeFailure f hits he hh =>
    have hblames := h.blames_of_waiting he (f := f) (by rw [hh]; exact List.mem_cons_self)
    rw [he] at hg ⊢
    simp only [inHand, List.append_nil, hemitted]
    cases hg with
    | receiving hs => exact .failing hs (.blamed rfl hblames)
  | close he =>
    rw [he] at hg ⊢
    simp only [inHand, List.append_nil, hemitted]
    cases hg with
    | receiving hs => exact .complete hs
  | @search name apps he hfound =>
    rw [h.source, h.address] at hfound
    rw [he] at hg ⊢
    simp only [inHand, hemitted]
    cases hg with
    | searching hs =>
      have hsending : s.Grouped (searched ++ [name]) (s.told searched ++ [].map .ok)
          (.sending apps) := .sending rfl hs hfound
      rwa [List.map_nil, List.append_nil] at hsending
  | @searchFailure name f he hfound =>
    rw [h.source, h.address] at hfound
    rw [he] at hg ⊢
    simp only [inHand, hemitted]
    cases hg with
    | searching hs => exact .failing hs (.unsearchable rfl hfound)
  | sent he =>
    rw [he] at hg ⊢
    simp only [inHand, List.append_nil, hemitted]
    cases hg with
    | @sending names name apps _ hn hs hf =>
      rw [List.append_nil] at hf
      subst hn
      rw [← told_append names hf]
      exact .receiving (hs.append hf)
  | @emit app rest he _ =>
    rw [he] at hg ⊢
    simp only [inHand, List.append_nil]
    rw [← List.append_assoc, hemitted]
    cases hg with
    | @sending names name apps _ hn hs hf =>
      have hsending : s.Grouped searched (s.told names ++ (apps ++ [app]).map .ok)
          (.sending rest) := .sending hn hs (by rw [hf]; simp)
      rwa [List.map_append, ← List.append_assoc] at hsending
  | @emitFailure f he _ =>
    rw [he] at hg ⊢
    simp only [inHand, List.append_nil]
    rw [← List.append_assoc, hemitted]
    cases hg with
    | failing hs hf => exact .failed hs hf
  | giveUp hn =>
    rw [ha] at hn
    cases hn

theorem hitNames_append (hits more : List (Except Failure String)) :
    hitNames (hits ++ more) = hitNames hits ++ hitNames more := List.filterMap_append

/-- A move of the extractor takes names from the hits one by one. -/
theorem Served.extractorMove (hv : s.Served queued searched t)
    (h : s.Stands queued (received ++ t.output) t) (hx : t.extractorEnded = false)
    (ht : t.Transition .extract none u) : s.Served queued (searched ++ inHand t.extractor) u := by
  have htaken := hv.taken hx
  refine ⟨fun hu => ?_, ?_⟩
  · cases ht with
    | takeHit he hh =>
      rw [he, hh] at htaken
      rw [he, htaken]
      simp [inHand, hitNames, Except.toOption]
    | takeFailure he hh =>
      rw [he, hh] at htaken
      rw [he, htaken]
      simp [inHand, hitNames, Except.toOption, List.filterMap_cons]
    | search he | searchFailure he | sent he | emit he =>
      rw [he] at htaken
      rw [he, htaken]
      simp [inHand]
    | close | emitFailure | giveUp => cases hu
  · obtain ⟨rest, hrest⟩ := h.hitNames_append hx
    rw [htaken, List.append_assoc] at hrest
    exact ⟨_, hrest⟩

/-! ## Other moves -/

/-- Only the extractor adds to the output. -/
theorem Transition.output_eq {move : ScanMove} {entry : Option (Except Failure Appearance)}
    (ht : t.Transition move entry u) (hm : move ≠ .extract) (hu : u.abandoned = false) :
    u.extractor = t.extractor ∧ entry.toList ++ u.output = t.output := by
  cases ht with
  | list =>
    unfold Scan.list
    split <;> exact ⟨rfl, rfl⟩
  | receive _ ho => exact ⟨rfl, ho.symm⟩
  | abandon => cases hu
  | takeHit | takeFailure | close | search | searchFailure | sent | emit | emitFailure | giveUp =>
    exact absurd rfl hm
  | _ => exact ⟨rfl, rfl⟩

theorem extractorEnded_congr (h : u.extractor = t.extractor) :
    u.extractorEnded = t.extractorEnded := by
  unfold extractorEnded
  rw [h]

/-! ## Along every order of moves -/

theorem searched?_extract {entry : Option (Except Failure Appearance)} :
    (Event.searched? ⟨t, .extract, entry, u⟩).toList = inHand t.extractor := by
  unfold Event.searched?
  cases t.extractor <;> rfl

theorem searched?_other {move : ScanMove} (hm : move ≠ .extract)
    {entry : Option (Except Failure Appearance)} : Event.searched? ⟨t, move, entry, u⟩ = none := by
  unfold Event.searched?
  cases move with
  | extract => exact absurd rfl hm
  | _ => rfl

/-- While the consumer is there, its scan keeps to groups. -/
theorem grouped_of_trail (hs : s.Fresh) (h : Trail Scan.step s events t)
    (ha : t.abandoned = false) :
    ∃ queued, s.Stands queued (Trail.outputs events ++ t.output) t ∧
      s.Grouped (searchedNames events) (Trail.outputs events ++ t.output) t.extractor ∧
      s.Served queued (searchedNames events) t := by
  induction h with
  | start =>
    have hnothing : s.Searchable [] := by simp [Searchable]
    refine ⟨[], hs.stands, ?_, ⟨fun _ => ?_, s.positives, .refl _⟩⟩
    · rw [hs.extractor, hs.output]
      exact .receiving hnothing
    · rw [hs.extractor, hs.hits]
      rfl
  | @step events t u move entry _ hstep ih =>
    have ht := transition_of_step hstep
    have hat := ht.stayed ha
    obtain ⟨queued, hstands, hgrouped, hserved⟩ := ih hat
    rw [Trail.outputs_append, Trail.outputs_single, searchedNames_append, searchedNames_single]
    by_cases hm : move = .extract
    · subst hm
      obtain ⟨rfl, -⟩ := ht.of_extract
      rw [searched?_extract, Option.toList_none, List.append_nil]
      exact ⟨queued, hstands.extractorMove hat ht, hgrouped.extractorMove hstands hat ht,
        hserved.extractorMove hstands (ht.extractor_open hat) ht⟩
    · obtain ⟨more, hafter, hhits⟩ := hstands.otherMove ht hm ha
      obtain ⟨hextractor, houtput⟩ := ht.output_eq hm ha
      rw [searched?_other hm, Option.toList_none, List.append_nil, hextractor]
      refine ⟨queued ++ more, hafter, ?_, fun hu => ?_, hserved.once⟩
      · rw [List.append_assoc, houtput]
        exact hgrouped
      · rw [extractorEnded_congr hextractor] at hu
        rw [hitNames_append, hserved.taken hu, hhits, hitNames_append, hextractor]
        simp only [List.append_assoc]

/-! ## Reading to the end -/

/-- The output of a scan, read to the end, is the groups of these names and then this failure, if
there is one. -/
structure ReadsAs (s : Scan) (events : List Event) (names : List String)
    (ending : Option Failure) : Prop where
  received : Trail.outputs events =
    (names.flatMap s.appearances).map .ok ++ ending.toList.map .error
  /-- A group is all that the search of a chunk gave, in its order. -/
  whole : ∀ name ∈ names, s.found name = .ok (s.appearances name)
  /-- No name is used more often than it passes. -/
  once : ∃ rest, (names ++ rest).Perm s.positives
  /-- The chunks that were searched are those of the groups and perhaps one that failed. -/
  searched : searchedNames events = names ∨
    ∃ name f, searchedNames events = names ++ [name] ∧ s.found name = .error f
  failed_iff : ending.isSome = true ↔ (∃ f, s.names? = .error f) ∨
    (∃ name ∈ s.ranges, ∃ f, s.answer name = .error f) ∨
    ∃ name ∈ searchedNames events, ∃ f, s.found name = .error f

theorem Grouped.complete_readsAs (hs : s.Searchable (searchedNames events))
    (hreceived : Trail.outputs events = s.told (searchedNames events))
    (honce : ∃ rest, (searchedNames events ++ rest).Perm s.positives)
    (hc : s.Concludes (Trail.outputs events)) : s.ReadsAs events (searchedNames events) none := by
  rw [hreceived] at hc
  obtain ⟨⟨all, hlisted⟩, hanswered, -, -⟩ := Concludes.complete_of_ok hc
  refine ⟨by simpa [told] using hreceived, fun name => hs.found_eq, honce, .inl rfl, ?_⟩
  constructor
  · intro hn
    cases hn
  · rintro (⟨f, hf⟩ | ⟨name, hmem, f, hf⟩ | ⟨name, hmem, f, hf⟩)
    · rw [hlisted] at hf
      cases hf
    · obtain ⟨b, hb⟩ := hanswered name hmem
      rw [hb] at hf
      cases hf
    · rw [hs.found_eq hmem] at hf
      cases hf

theorem Grouped.failed_readsAs {names : List String} {f : Failure} (hs : s.Searchable names)
    (hf : s.Halts (searchedNames events) names f)
    (hreceived : Trail.outputs events = s.told names ++ [.error f])
    (honce : ∃ rest, (searchedNames events ++ rest).Perm s.positives) :
    s.ReadsAs events names (some f) := by
  refine ⟨by simpa [told] using hreceived, fun name => hs.found_eq, ?_, ?_, fun _ => ?_,
    fun _ => rfl⟩
  · obtain ⟨rest, hrest⟩ := honce
    cases hf with
    | blamed hn => exact ⟨rest, hn ▸ hrest⟩
    | @unsearchable name hn =>
      rw [hn, List.append_assoc] at hrest
      exact ⟨_, hrest⟩
  · cases hf with
    | blamed hn => exact .inl hn
    | unsearchable hn hfound => exact .inr ⟨_, f, hn, hfound⟩
  · cases hf with
    | blamed _ hb =>
      rcases hb with hlist | ⟨name, hmem, hanswer⟩
      · exact .inl ⟨f, hlist⟩
      · exact .inr (.inl ⟨name, hmem, f, hanswer⟩)
    | @unsearchable name hn hfound => exact .inr (.inr ⟨name, by rw [hn]; simp, f, hfound⟩)

/-- A consumer that reads to the end reads groups, and a failure if there was one. -/
theorem exists_readsAs (hs : s.Fresh) (h : Trail Scan.step s events t) (ht : t.Exhausted) :
    ∃ names ending, s.ReadsAs events names ending := by
  obtain ⟨ha, ho, he⟩ := ht
  obtain ⟨queued, hstands, hgrouped, hserved⟩ := grouped_of_trail hs h ha
  have hextractor := hstands.extractor
  rw [extractor_eq_ended he, ho, List.append_nil] at hextractor hgrouped
  have hconcludes : s.Concludes (Trail.outputs events) := by
    generalize Trail.outputs events = sent at hextractor
    cases hextractor with
    | ended hc => exact hc
  generalize hsent : Trail.outputs events = sent at hgrouped
  cases hgrouped with
  | complete hs => exact ⟨_, _, Grouped.complete_readsAs hs hsent hserved.once hconcludes⟩
  | failed hs hf => exact ⟨_, _, Grouped.failed_readsAs hs hf hsent hserved.once⟩

/-- Behind the end of the output comes nothing. -/
theorem outputs_eq_nil (h : Trail Scan.step s events t) (hs : s.Exhausted) :
    Trail.outputs events = [] := by
  have hstill : Trail.outputs events = [] ∧ t.output = [] ∧ t.extractorEnded = true := by
    induction h with
    | start => exact ⟨rfl, hs.2⟩
    | @step events t u move entry _ hstep ih =>
      obtain ⟨hnothing, ho, he⟩ := ih
      have ht := transition_of_step hstep
      have hended := extractor_eq_ended he
      rw [Trail.outputs_append, Trail.outputs_single, hnothing, List.nil_append]
      cases ht with
      | list =>
        unfold Scan.list
        split <;> exact ⟨rfl, ho, he⟩
      | receive _ ho' =>
        rw [ho] at ho'
        cases ho'
      | abandon => exact ⟨rfl, rfl, he⟩
      | takeHit he' | takeFailure he' | search he' | searchFailure he' | sent he' | emit he'
      | emitFailure he' =>
        rw [hended] at he'
        cases he'
      | close | giveUp => exact ⟨rfl, ho, rfl⟩
      | _ => exact ⟨rfl, ho, he⟩
  exact hstill.1

/-- When no name is listed twice, none stands twice for a range that passes. -/
theorem nodup_positives (h : ∀ listed, s.source.names = .ok listed → listed.Nodup) :
    s.positives.Nodup := by
  refine List.Pairwise.filter _ ?_
  unfold ranges names?
  cases hn : s.source.names with
  | error f => exact List.nodup_nil
  | ok listed => exact List.Pairwise.filter _ (h listed hn)

/-- Whatever the order of the moves, a consumer that stays can read the output of a scan to its end;
what it reads are whole groups, one for each of some names that pass, and then either nothing or one
failure; a failure exactly if the names could not be listed, a filter of a range failed, or a chunk
that was searched could not be; and nothing follows. -/
theorem output_grouped {source : RangeSource} {chain : String} {address : Address}
    {settings : ScanSettings} (h : start? source chain address settings = some s) :
    (∀ events t, Trail Scan.step s events t → t.abandoned = false →
      ∃ more u, Trail Scan.step t more u ∧ u.Exhausted) ∧
    ∀ events t, Trail Scan.step s events t → t.Exhausted →
      (∃ names ending, s.ReadsAs events names ending ∧
        ((∀ listed, source.names = .ok listed → listed.Nodup) → names.Nodup)) ∧
      ∀ more u, Trail Scan.step t more u → Trail.outputs more = [] := by
  obtain ⟨hfresh, rfl, -, -⟩ := fresh_of_start h
  refine ⟨fun events t _ ha => exists_exhausted ha, fun events t htrail hend => ⟨?_, ?_⟩⟩
  · obtain ⟨names, ending, hreads⟩ := exists_readsAs hfresh htrail hend
    refine ⟨names, ending, hreads, fun hlisted => ?_⟩
    obtain ⟨rest, hrest⟩ := hreads.once
    exact (List.nodup_append.mp (hrest.nodup_iff.mpr (nodup_positives hlisted))).1
  · intro more u hmore
    exact outputs_eq_nil hmore hend

/-- The first range is found while the filter of the second turns out to be damaged. -/
def sampleMoves : List ScanMove :=
  [.report, .task 0, .task 0, .task 1, .extract, .extract, .extract, .receive, .collect 1, .report,
    .extract, .receive, .extract, .extract, .extract, .receive]

theorem output_grouped_damaged_filter :
    ∃ s, start? (sampleSource (.error ⟨[], .reported "damaged"⟩)) "mainnet" (.ofNat 1)
        narrowQueues = some s ∧
      (Trail.follow Scan.step s sampleMoves).2.Exhausted ∧
      ∃ names ending, s.ReadsAs (Trail.follow Scan.step s sampleMoves).1 names ending ∧
        ending.isSome = true := by
  have hrun : (start? (sampleSource (.error ⟨[], .reported "damaged"⟩)) "mainnet" (.ofNat 1)
      narrowQueues).map (fun s =>
        let t := (Trail.follow Scan.step s sampleMoves).2
        ((t.abandoned, t.output.isEmpty, t.extractorEnded),
          (decide ("000000010-000000019" ∈ s.ranges), (s.answer "000000010-000000019").isOk))) =
      some ((false, true, true), (true, false)) := by decide +kernel
  obtain ⟨s, hstart, heq⟩ := Option.map_eq_some_iff.mp hrun
  simp only [Prod.mk.injEq, decide_eq_true_eq, List.isEmpty_iff] at heq
  obtain ⟨hend, hrange, hanswer⟩ := heq
  have htrail := Trail.trail_follow Scan.step s sampleMoves
  obtain ⟨⟨names, ending, hreads, -⟩, -⟩ := (output_grouped hstart).2 _ _ htrail hend
  refine ⟨s, hstart, hend, names, ending, hreads, hreads.failed_iff.mpr (.inr (.inl ?_))⟩
  refine ⟨_, hrange, ?_⟩
  cases hf : s.answer "000000010-000000019" with
  | error f => exact ⟨f, rfl⟩
  | ok b =>
    rw [hf] at hanswer
    cases hanswer

end Scan

end AppearanceIndex
