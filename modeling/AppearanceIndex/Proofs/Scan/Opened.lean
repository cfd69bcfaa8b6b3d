import AppearanceIndex.Proofs.Scan.Outcome
import AppearanceIndex.Proofs.Trail

/-!
# What a scan opens

A bloom task opens the filter of its name to test it (`Scan.tested`), and the extractor opens the
chunk of a hit to search it (`Scan.searched`). Every name that a scan works with is one of its
ranges (`Scan.Confined`), so it opens nothing else. What a source holds under other names does not
matter either: with another source that agrees on the ranges (`RangeSource.Agree`) every move has
the same result.
-/

namespace AppearanceIndex

/-- Both sources list these names of ranges and give the same files for them. -/
structure RangeSource.Agree (ranges : List String) (source other : RangeSource) : Prop where
  listed : source.names.map rangeNames = .ok ranges
  listed' : other.names.map rangeNames = .ok ranges
  blooms : ∀ name ∈ ranges, source.openBloom name = other.openBloom name
  chunks : ∀ name ∈ ranges, source.openChunk name = other.openChunk name

namespace RangeSource.Agree

variable {ranges : List String} {source other : RangeSource}

theorem symm (h : Agree ranges source other) : Agree ranges other source where
  listed := h.listed'
  listed' := h.listed
  blooms := fun name hmem => (h.blooms name hmem).symm
  chunks := fun name hmem => (h.chunks name hmem).symm

theorem mayContain_eq (h : Agree ranges source other) {name : String} (hn : name ∈ ranges)
    (address : Address) : source.mayContain address name = other.mayContain address name := by
  unfold mayContain
  rw [h.blooms name hn]

theorem extract_eq (h : Agree ranges source other) {name : String} (hn : name ∈ ranges)
    (address : Address) : source.extract address name = other.extract address name := by
  unfold extract
  rw [h.chunks name hn]

end RangeSource.Agree

namespace Scan

abbrev Event := AppearanceIndex.Event Scan ScanMove (Except Failure Appearance)

def Event.tested? (e : Event) : Option String :=
  match e.move with
  | .task i =>
    match e.before.tasks[i]? with
    | some (name, .testing) => some name
    | _ => none
  | _ => none

def Event.searched? (e : Event) : Option String :=
  match e.move, e.before.extractor with
  | .extract, .searching name => some name
  | _, _ => none

def testedNames (events : List Event) : List String := events.filterMap Event.tested?

def searchedNames (events : List Event) : List String := events.filterMap Event.searched?

@[simp] theorem testedNames_append (events more : List Event) :
    testedNames (events ++ more) = testedNames events ++ testedNames more := List.filterMap_append

@[simp] theorem searchedNames_append (events more : List Event) :
    searchedNames (events ++ more) = searchedNames events ++ searchedNames more :=
  List.filterMap_append

@[simp] theorem testedNames_single (e : Event) : testedNames [e] = e.tested?.toList := by
  cases h : e.tested? <;> simp [testedNames, h]

@[simp] theorem searchedNames_single (e : Event) : searchedNames [e] = e.searched?.toList := by
  cases h : e.searched? <;> simp [searchedNames, h]

variable {s t u : Scan} {events : List Event}

theorem course_of_trail (h : Trail Scan.step s events t) : s.Course (Trail.outputs events) t := by
  induction h with
  | start => exact .start
  | step _ hs ih =>
    rw [Trail.outputs_append, Trail.outputs_single]
    exact ih.step hs

/-! ## Only ranges are opened -/

/-- The names that a scan works with that began as `s` are ranges of `s`. -/
structure Confined (s t : Scan) : Prop where
  source : t.source = s.source
  address : t.address = s.address
  chain : t.chain = s.chain
  tasks : ∀ task ∈ t.tasks, task.1 ∈ s.ranges
  hits : ∀ name, .ok name ∈ t.hits → name ∈ s.ranges
  searching : ∀ name, t.extractor = .searching name → name ∈ s.ranges

theorem Fresh.confined (h : s.Fresh) : s.Confined s where
  source := rfl
  address := rfl
  chain := rfl
  tasks := by rw [h.tasks]; simp
  hits := by rw [h.hits]; simp
  searching := by rw [h.extractor]; simp

theorem Confined.list (h : s.Confined t) : s.Confined t.list := by
  unfold Scan.list
  cases hl : (Activity.listBlooms t.chain).around t.source.names with
  | error f => exact { h with }
  | ok names =>
    rw [h.chain, h.source] at hl
    have hranges : s.ranges = RangeSource.rangeNames names := by
      unfold ranges names?
      rw [hl]
      rfl
    refine { h with tasks := fun task hmem => ?_ }
    obtain ⟨name, hname, rfl⟩ := List.mem_map.mp hmem
    rw [hranges]
    exact hname

theorem Confined.mem_ranges (h : s.Confined t) {i : Nat} {name : String} {phase : BloomTask}
    (hi : t.tasks[i]? = some (name, phase)) : name ∈ s.ranges :=
  h.tasks _ (List.mem_of_getElem? hi)

/-- A task keeps its name. -/
theorem Confined.set (h : s.Confined t) {i : Nat} {name : String} {phase after : BloomTask}
    (hi : t.tasks[i]? = some (name, phase)) :
    ∀ task ∈ t.tasks.set i (name, after), task.1 ∈ s.ranges := by
  intro task hmem
  rcases List.mem_or_eq_of_mem_set hmem with hmem | rfl
  · exact h.tasks task hmem
  · exact h.mem_ranges hi

theorem Confined.step (h : s.Confined t) {move : ScanMove}
    {entry : Option (Except Failure Appearance)} (ht : t.Transition move entry u) :
    s.Confined u := by
  cases ht with
  | list => exact h.list
  | allCollected | dropFailure => exact { h with }
  | reportFailure =>
    refine { h with hits := fun name hmem => ?_ }
    rcases List.mem_append.mp hmem with hmem | hmem
    · exact h.hits name hmem
    · cases List.mem_singleton.mp hmem
  | test hi | dropHit hi | collect _ hi | collectFailure _ hi =>
    exact { h with tasks := h.set hi }
  | @hit i name hi he =>
    refine { h with tasks := h.set hi, hits := fun other hmem => ?_ }
    rcases List.mem_append.mp hmem with hmem | hmem
    · exact h.hits other hmem
    · cases List.mem_singleton.mp hmem
      exact h.mem_ranges hi
  | @takeHit name hits he hh =>
    have hhits : ∀ other, .ok other ∈ hits → other ∈ s.ranges :=
      fun other hmem => h.hits other (hh ▸ List.mem_cons_of_mem _ hmem)
    refine { h with hits := hhits, searching := fun other heq => ?_ }
    cases heq
    exact h.hits name (hh ▸ List.mem_cons_self)
  | @takeFailure f hits he hh =>
    exact
      { h with
        hits := fun other hmem => h.hits other (hh ▸ List.mem_cons_of_mem _ hmem)
        searching := fun _ heq => nomatch heq }
  | close | search | searchFailure | sent | emit | emitFailure | giveUp =>
    exact { h with searching := fun _ heq => nomatch heq }
  | receive | abandon => exact { h with }

theorem Course.confined {received : List (Except Failure Appearance)} (hs : s.Fresh)
    (h : s.Course received t) : s.Confined t := by
  induction h with
  | start => exact hs.confined
  | step _ hstep ih => exact ih.step (transition_of_step hstep)

/-- A scan opens nothing but filters and chunks of its ranges. -/
theorem mem_ranges_of_opened (hs : s.Fresh) (h : Trail Scan.step s events t) {name : String}
    (hmem : name ∈ testedNames events ∨ name ∈ searchedNames events) : name ∈ s.ranges := by
  induction h with
  | start => simp [testedNames, searchedNames] at hmem
  | @step events t u move entry htrail hstep ih =>
    have hconfined := (course_of_trail htrail).confined hs
    simp only [testedNames_append, searchedNames_append, testedNames_single, searchedNames_single,
      List.mem_append, Option.mem_toList] at hmem
    rcases hmem with (hmem | hmem) | (hmem | hmem)
    · exact ih (.inl hmem)
    · unfold Event.tested? at hmem
      split at hmem
      · split at hmem
        · next htask =>
          cases hmem
          exact hconfined.mem_ranges htask
        · cases hmem
      · cases hmem
    · exact ih (.inr hmem)
    · unfold Event.searched? at hmem
      split at hmem
      · next hsearching =>
        cases hmem
        exact hconfined.searching _ hsearching
      · cases hmem

/-! ## What other names stand for -/

def withSource (t : Scan) (other : RangeSource) : Scan := { t with source := other }

section Agree

variable {other : RangeSource}

theorem ranges_eq_of_agree {ranges : List String} (ha : RangeSource.Agree ranges s.source other) :
    s.ranges = ranges ∧ (s.withSource other).ranges = ranges := by
  have hranges : ∀ {t : Scan}, t.source.names.map RangeSource.rangeNames = .ok ranges →
      t.ranges = ranges := by
    intro t ht
    unfold Scan.ranges names?
    cases hn : t.source.names with
    | error f =>
      rw [hn] at ht
      cases ht
    | ok names =>
      rw [hn] at ht
      cases ht
      rfl
  exact ⟨hranges ha.listed, hranges (t := s.withSource other) ha.listed'⟩

theorem list_withSource (h : s.Confined t) (ha : RangeSource.Agree s.ranges s.source other) :
    (t.withSource other).list = t.list.withSource other := by
  have hone := ha.listed
  have hother := ha.listed'
  unfold Scan.list withSource
  rw [h.source]
  cases hn : s.source.names with
  | error f =>
    rw [hn] at hone
    cases hone
  | ok names =>
    cases hn' : other.names with
    | error f =>
      rw [hn'] at hother
      cases hother
    | ok names' =>
      rw [hn] at hone
      rw [hn'] at hother
      have hsame : RangeSource.rangeNames names' = RangeSource.rangeNames names :=
        Except.ok.inj (hother.trans hone.symm)
      simp only [Activity.around, hsame]

theorem report_withSource (h : s.Confined t) (ha : RangeSource.Agree s.ranges s.source other) :
    (t.withSource other).report = t.report.map (·.withSource other) := by
  unfold report
  cases hr : t.reporter with
  | listing =>
    rw [show (t.withSource other).reporter = .listing from hr]
    exact congrArg some (list_withSource h ha)
  | collecting =>
    rw [show (t.withSource other).reporter = .collecting from hr]
    simp only [apply_ite (Option.map _)]
    rfl
  | failing f =>
    rw [show (t.withSource other).reporter = .failing f from hr]
    simp only [apply_ite (Option.map _)]
    rfl
  | ended =>
    rw [show (t.withSource other).reporter = .ended from hr]
    rfl

theorem runTask_withSource (h : s.Confined t) (ha : RangeSource.Agree s.ranges s.source other)
    (i : Nat) : (t.withSource other).runTask i = (t.runTask i).map (·.withSource other) := by
  unfold runTask
  rw [show (t.withSource other).tasks = t.tasks from rfl]
  cases hi : t.tasks[i]? with
  | none => rfl
  | some task =>
    obtain ⟨name, phase⟩ := task
    cases phase with
    | testing =>
      have hname : name ∈ s.ranges := h.mem_ranges hi
      have hanswer : other.mayContain t.address name = t.source.mayContain t.address name := by
        rw [h.source]
        exact (ha.mayContain_eq hname _).symm
      simp only [withSource, hanswer, Option.map_some]
    | hitting =>
      simp only [apply_ite (Option.map _)]
      rfl
    | finished | collected => rfl

theorem collect_withSource (t : Scan) (other : RangeSource) (i : Nat) :
    (t.withSource other).collect i = (t.collect i).map (·.withSource other) := by
  unfold Scan.collect
  rw [show (t.withSource other).tasks = t.tasks from rfl,
    show (t.withSource other).reporter = t.reporter from rfl]
  split <;> rfl

theorem emit_withSource (t : Scan) (other : RangeSource) (entry : Except Failure Appearance)
    (next : Extractor) :
    (t.withSource other).emit entry next = (t.emit entry next).map (·.withSource other) := by
  unfold emit
  simp only [apply_ite (Option.map _)]
  rfl

theorem extract_withSource (h : s.Confined t) (ha : RangeSource.Agree s.ranges s.source other) :
    (t.withSource other).extract = t.extract.map (·.withSource other) := by
  unfold extract
  cases he : t.extractor with
  | receiving =>
    rw [show (t.withSource other).extractor = .receiving from he]
    rw [show (t.withSource other).hits = t.hits from rfl]
    cases t.hits with
    | nil =>
      simp only [apply_ite (Option.map _)]
      rfl
    | cons hit hits => cases hit <;> rfl
  | searching name =>
    rw [show (t.withSource other).extractor = .searching name from he]
    have hfound : (t.withSource other).source.extract (t.withSource other).address name =
        t.source.extract t.address name := by
      rw [h.source]
      exact (ha.extract_eq (h.searching name he) _).symm
    simp only [hfound]
    cases t.source.extract t.address name <;> rfl
  | sending apps =>
    rw [show (t.withSource other).extractor = .sending apps from he]
    cases apps with
    | nil => rfl
    | cons app apps => exact emit_withSource ..
  | failing f =>
    rw [show (t.withSource other).extractor = .failing f from he]
    exact emit_withSource ..
  | ended =>
    rw [show (t.withSource other).extractor = .ended from he]
    rfl

theorem receiveNow_withSource (t : Scan) (other : RangeSource) :
    (t.withSource other).receiveNow =
      t.receiveNow.map fun received => (received.1, received.2.withSource other) := by
  unfold receiveNow
  rw [show (t.withSource other).abandoned = t.abandoned from rfl,
    show (t.withSource other).output = t.output from rfl]
  split <;> rfl

/-- Every move is possible with both sources or with none, and leads to the same. -/
theorem step_withSource (h : s.Confined t) (ha : RangeSource.Agree s.ranges s.source other)
    (move : ScanMove) : (t.withSource other).step move =
      (t.step move).map fun outcome => (outcome.1, outcome.2.withSource other) := by
  cases move with
  | report => simp only [step, report_withSource h ha, Option.map_map, Function.comp_def]
  | task i => simp only [step, runTask_withSource h ha, Option.map_map, Function.comp_def]
  | collect i => simp only [step, collect_withSource, Option.map_map, Function.comp_def]
  | extract => simp only [step, extract_withSource h ha, Option.map_map, Function.comp_def]
  | receive => simp only [step, receiveNow_withSource, Option.map_map, Function.comp_def]
  | abandon => rfl

theorem Course.withSource {received : List (Except Failure Appearance)} (hs : s.Fresh)
    (ha : RangeSource.Agree s.ranges s.source other) (h : s.Course received t) :
    (s.withSource other).Course received (t.withSource other) := by
  induction h with
  | start => exact .start
  | @step received t u move entry hcourse hstep ih =>
    have hother : (t.withSource other).step move = some (entry, u.withSource other) := by
      rw [step_withSource (hcourse.confined hs) ha, hstep]
      rfl
    exact ih.step hother

theorem Finds.withSource {outcome : Except Failure (List Appearance)} (hs : s.Fresh)
    (ha : RangeSource.Agree s.ranges s.source other) (h : s.Finds outcome) :
    (s.withSource other).Finds outcome := by
  cases outcome with
  | ok apps =>
    obtain ⟨t, hcourse, hend⟩ := h
    exact ⟨_, hcourse.withSource hs ha, hend⟩
  | error f =>
    obtain ⟨apps, t, hcourse, hat⟩ := h
    exact ⟨apps, _, hcourse.withSource hs ha, hat⟩

/-- What a scan finds depends on its ranges alone. -/
theorem finds_withSource_iff (hs : s.Fresh) (ha : RangeSource.Agree s.ranges s.source other)
    (outcome : Except Failure (List Appearance)) :
    s.Finds outcome ↔ (s.withSource other).Finds outcome := by
  refine ⟨fun h => h.withSource hs ha, fun h => ?_⟩
  have hback : RangeSource.Agree (s.withSource other).ranges (s.withSource other).source
      s.source := by
    rw [(ranges_eq_of_agree ha).2]
    exact ha.symm
  have hfresh : (s.withSource other).Fresh := { hs with }
  have hagain : ((s.withSource other).withSource s.source).Finds outcome :=
    Finds.withSource hfresh hback h
  exact hagain

end Agree

end Scan

end AppearanceIndex
