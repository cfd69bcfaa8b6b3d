import AppearanceIndex.Proofs.Scan.Outcome
import AppearanceIndex.Scan.Receive

/-!
# Receiving follows a course

`Scan.findAll` is what a consumer can find (`Scan.finds_findAll`): every turn of `Scan.receive` is a
move, and a scan in which nobody can make a move but the consumer, who finds nothing, has ended.
-/

namespace AppearanceIndex

/-- The queues of a scan are not larger than can be. -/
structure ScanSettings.Possible (settings : ScanSettings) : Prop where
  hits : settings.hitCapacity.val ≤ Scan.maxCapacity
  output : settings.outputCapacity.val ≤ Scan.maxCapacity

namespace Scan

variable {s t : Scan} {received : List (Except Failure Appearance)}

theorem course_single {move : ScanMove} {entry : Option (Except Failure Appearance)}
    (h : s.step move = some (entry, t)) : s.Course entry.toList t :=
  .step .start h

theorem Transition.abandoned_eq {move : ScanMove} {entry : Option (Except Failure Appearance)}
    (h : s.Transition move entry t) (hm : move ≠ .abandon) : t.abandoned = s.abandoned := by
  cases h with
  | list =>
    unfold Scan.list
    split <;> rfl
  | abandon => exact absurd rfl hm
  | _ => rfl

theorem step_of_advance (h : s.advance = some t) :
    ∃ move, move ≠ .abandon ∧ s.step move = some (none, t) := by
  unfold advance at h
  split at h
  · next u he =>
    cases h
    exact ⟨.extract, by simp, by simp [step, he]⟩
  · split at h
    · next u hr =>
      cases h
      obtain ⟨i, -, hi⟩ := List.exists_of_findSome?_eq_some hr
      exact ⟨.task i, by simp, by simp [step, hi]⟩
    · split at h
      · next u hc =>
        cases h
        obtain ⟨i, -, hi⟩ := List.exists_of_findSome?_eq_some hc
        exact ⟨.collect i, by simp, by simp [step, hi]⟩
      · exact ⟨.report, by simp, by simp [step, h]⟩

/-! ## Nobody waits for ever -/

theorem hasHitRoom_of_nil (hh : s.hits = []) : s.hasHitRoom = true := by
  unfold hasHitRoom
  rw [hh]
  exact decide_eq_true s.settings.hitCapacity.property

theorem hasOutputRoom_of_nil (ho : s.output = []) : s.hasOutputRoom = true := by
  unfold hasOutputRoom
  rw [ho]
  exact decide_eq_true s.settings.outputCapacity.property

theorem isSome_runTask {i : Nat} {task : String × BloomTask} (hi : s.tasks[i]? = some task)
    (hf : isFinished task.2 = false) (hh : s.hits = []) : (s.runTask i).isSome = true := by
  obtain ⟨name, phase⟩ := task
  unfold runTask
  rw [hi]
  cases phase with
  | testing => rfl
  | hitting =>
    simp only [hasHitRoom_of_nil hh, if_true]
    split <;> rfl
  | finished | collected => cases hf

theorem isSome_collect {i : Nat} {name : String} {result : Except Failure Unit}
    (hr : s.reporter = .collecting) (hi : s.tasks[i]? = some (name, .finished result)) :
    (s.collect i).isSome = true := by
  unfold Scan.collect
  rw [hr, hi]
  cases result <;> rfl

/-- An extractor that cannot move has ended or waits for a hit. -/
theorem extract_eq_none (h : s.extract = none) (ho : s.output = []) :
    s.extractorEnded = true ∨ (s.extractor = .receiving ∧ s.hits = [] ∧ s.hitsClosed = false) := by
  have hroom := hasOutputRoom_of_nil ho
  unfold extract at h
  cases he : s.extractor with
  | ended =>
    left
    unfold extractorEnded
    rw [he]
  | receiving =>
    right
    simp only [he] at h
    split at h
    · cases h
    · cases h
    · next hh =>
      split at h
      · cases h
      · next hc => exact ⟨rfl, hh, by simpa using hc⟩
  | searching name =>
    simp only [he] at h
    split at h <;> cases h
  | sending apps =>
    cases apps with
    | nil =>
      simp only [he] at h
      cases h
    | cons app apps =>
      simp only [he, Scan.emit, hroom, if_true] at h
      split at h <;> cases h
  | failing f =>
    simp only [he, Scan.emit, hroom, if_true] at h
    split at h <;> cases h

theorem eq_none_of_findSome? {f : Nat → Option Scan} {n : Nat}
    (h : (List.range n).findSome? f = none) {i : Nat} (hi : i < n) : f i = none :=
  List.findSome?_eq_none_iff.mp h i (List.mem_range.mpr hi)

/-- When nobody but the consumer can move, nobody can. -/
theorem advance_eq_none (h : s.advance = none) :
    s.extract = none ∧ (∀ i < s.tasks.length, s.runTask i = none) ∧
      (∀ i < s.tasks.length, s.collect i = none) ∧ s.report = none := by
  unfold advance at h
  split at h
  · cases h
  · next hextract =>
    split at h
    · cases h
    · next htasks =>
      split at h
      · cases h
      · next hcollect =>
        exact ⟨hextract, fun i hi => eq_none_of_findSome? htasks hi,
          fun i hi => eq_none_of_findSome? hcollect hi, h⟩

/-- With room for a hit, a task that cannot move has finished. -/
theorem isFinished_of_stuck (hh : s.hits = [])
    (htasks : ∀ i < s.tasks.length, s.runTask i = none) :
    ∀ task ∈ s.tasks, isFinished task.2 = true := by
  intro task hmem
  obtain ⟨i, hi⟩ := List.getElem?_of_mem hmem
  cases hf : isFinished task.2 with
  | true => rfl
  | false =>
    have hsome := isSome_runTask hi hf hh
    rw [htasks i (List.getElem?_eq_some_iff.mp hi).1] at hsome
    cases hsome

/-- With room for a hit, a reporter that can neither move nor collect has ended. -/
theorem ended_of_stuck (hh : s.hits = []) (hall : ∀ task ∈ s.tasks, isFinished task.2 = true)
    (hcollect : ∀ i < s.tasks.length, s.collect i = none) (hreport : s.report = none) :
    s.reporter = .ended := by
  unfold report at hreport
  cases hreporter : s.reporter with
  | ended => rfl
  | listing =>
    rw [hreporter] at hreport
    cases hreport
  | failing f =>
    simp only [hreporter, hasHitRoom_of_nil hh, if_true] at hreport
    split at hreport <;> cases hreport
  | collecting =>
    simp only [hreporter] at hreport
    split at hreport
    · cases hreport
    · next hnot =>
      refine absurd (List.all_eq_true.mpr fun task hmem => ?_) hnot
      obtain ⟨i, hi⟩ := List.getElem?_of_mem hmem
      obtain ⟨name, phase⟩ := task
      cases phase with
      | testing | hitting => cases hall _ hmem
      | collected => rfl
      | finished result =>
        have hsome := isSome_collect hreporter hi
        rw [hcollect i (List.getElem?_eq_some_iff.mp hi).1] at hsome
        cases hsome

/-- A scan in which only the consumer could move, and finds nothing, has ended. -/
theorem exhausted_of_stuck (ha : s.abandoned = false) (hr : s.receiveNow = none)
    (h : s.advance = none) : s.Exhausted := by
  have ho : s.output = [] := by
    unfold receiveNow at hr
    rw [ha] at hr
    cases ho : s.output with
    | nil => rfl
    | cons entry output =>
      rw [ho] at hr
      cases hr
  obtain ⟨hextract, htasks, hcollect, hreport⟩ := advance_eq_none h
  rcases extract_eq_none hextract ho with he | ⟨-, hh, hclosed⟩
  · exact ⟨ha, ho, he⟩
  · -- an extractor that waits for a hit waits for somebody who could send one
    have hall := isFinished_of_stuck hh htasks
    unfold hitsClosed at hclosed
    rw [ended_of_stuck hh hall hcollect hreport, List.all_eq_true.mpr hall] at hclosed
    cases hclosed

/-! ## Receiving to the end -/

theorem course_receive (ha : s.abandoned = false) :
    match s.receive with
    | (some entry, t) => s.Course [entry] t ∧ t.abandoned = false
    | (none, t) => s.Course [] t ∧ t.Exhausted := by
  fun_induction receive s with
  | case1 s entry t hr =>
    have hstep : s.step .receive = some (some entry, t) := by simp [step, hr]
    exact ⟨course_single hstep, ((transition_of_step hstep).abandoned_eq (by simp)).trans ha⟩
  | case2 s hr t h ih =>
    obtain ⟨move, hm, hstep⟩ := step_of_advance h
    have hat : t.abandoned = false := ((transition_of_step hstep).abandoned_eq hm).trans ha
    have hcourse : s.Course [] t := course_single hstep
    have hrest := ih hat
    split at hrest
    · exact ⟨hcourse.trans hrest.1, hrest.2⟩
    · exact ⟨hcourse.trans hrest.1, hrest.2⟩
  | case3 s hr h => exact ⟨.start, exhausted_of_stuck ha hr h⟩

theorem ends_receiveAllAfter {start : Scan} {received : List Appearance}
    (h : start.Course (received.reverse.map .ok) s) (ha : s.abandoned = false) :
    start.Ends (s.receiveAllAfter received).1 (s.receiveAllAfter received).2 := by
  fun_induction receiveAllAfter received s with
  | case1 received s app t hr ih =>
    have hreceive := course_receive ha
    rw [hr] at hreceive
    refine ih ?_ hreceive.2
    have hmore := h.trans hreceive.1
    simpa using hmore
  | case2 received s f t hr =>
    have hreceive := course_receive ha
    rw [hr] at hreceive
    exact ⟨t, h.trans hreceive.1, hreceive.2⟩
  | case3 received s t hr =>
    have hreceive := course_receive ha
    rw [hr] at hreceive
    have hmore := h.trans hreceive.1
    rw [List.append_nil] at hmore
    exact ⟨t, hmore, hreceive.2⟩

/-- Receiving everything is one of the ways in which a scan can be read to its end. -/
theorem ends_receiveAll (ha : s.abandoned = false) : s.Ends s.receiveAll.1 s.receiveAll.2 :=
  ends_receiveAllAfter .start ha

theorem finds_findAll (ha : s.abandoned = false) : s.Finds s.findAll := by
  have hends := ends_receiveAll ha
  unfold findAll
  generalize s.receiveAll = all at hends ⊢
  obtain ⟨apps, failure⟩ := all
  cases failure with
  | none => exact hends.finds
  | some f => exact hends.finds

/-! ## Success and failure -/

theorem exists_start {settings : ScanSettings} (h : settings.Possible) (source : RangeSource)
    (chain : String) (address : Address) :
    ∃ scan, start? source chain address settings = some scan ∧ scan.Fresh ∧
      scan.source = source ∧ scan.address = address := by
  have hhits := h.hits
  have houtput := h.output
  cases hstart : start? source chain address settings with
  | none =>
    unfold start? at hstart
    rw [if_neg (by omega)] at hstart
    cases hstart
  | some scan =>
    obtain ⟨hfresh, hsource, -, haddress⟩ := fresh_of_start hstart
    exact ⟨scan, rfl, hfresh, hsource, haddress⟩

/-- Whatever the order of the moves, a consumer that reads the scan to its end meets no failure and
finds these appearances in some order; so does one that collects everything. As long as the consumer
stays, what it has received is the beginning of what it can still find. -/
structure Succeeds (s : Scan) (expected : List Appearance) : Prop where
  collected : ∃ apps, s.findAll = .ok apps ∧ apps.Perm expected
  finds : ∀ outcome, s.Finds outcome → ∃ apps, outcome = .ok apps ∧ apps.Perm expected
  continues : ∀ received t, s.Course received t → t.abandoned = false →
    ∃ apps : List Appearance, received <+: apps.map .ok ∧ s.Finds (.ok apps)

/-- Whatever is found after a course is found behind what was received in it. -/
theorem Course.finds {apps : List Appearance} (h : s.Course (apps.map .ok) t)
    {outcome : Except Failure (List Appearance)} (ht : t.Finds outcome) :
    s.Finds (outcome.map (apps ++ ·)) := by
  cases outcome with
  | ok more =>
    obtain ⟨u, hcourse, hend⟩ := ht
    refine ⟨u, ?_, hend⟩
    rw [List.map_append]
    exact h.trans hcourse
  | error f =>
    obtain ⟨more, u, hcourse, ha⟩ := ht
    refine ⟨apps ++ more, u, ?_, ha⟩
    rw [List.map_append, List.append_assoc]
    exact h.trans hcourse

/-- Where no outcome is a failure, a consumer that stays receives none. -/
theorem Course.received_ok (h : s.Course received t) (ha : t.abandoned = false)
    (hok : ∀ f, ¬ s.Finds (.error f)) : ∃ apps : List Appearance, received = apps.map .ok := by
  induction h with
  | start => exact ⟨[], rfl⟩
  | @step received t u move entry hcourse hstep ih =>
    obtain ⟨apps, rfl⟩ := ih ((transition_of_step hstep).stayed ha)
    cases entry with
    | none => exact ⟨apps, List.append_nil _⟩
    | some entry =>
      cases entry with
      | ok app => exact ⟨apps ++ [app], by simp⟩
      | error f => exact absurd ⟨apps, u, hcourse.step hstep, ha⟩ (hok f)

theorem succeeds_of_finds {expected : List Appearance} (ha : s.abandoned = false)
    (h : ∀ outcome, s.Finds outcome → ∃ apps, outcome = .ok apps ∧ apps.Perm expected) :
    s.Succeeds expected := by
  refine ⟨h _ (finds_findAll ha), h, fun received t hcourse hat => ?_⟩
  have hnever : ∀ f, ¬ s.Finds (.error f) := by
    intro f hfinds
    obtain ⟨apps, heq, -⟩ := h _ hfinds
    cases heq
  obtain ⟨apps, rfl⟩ := hcourse.received_ok hat hnever
  have hrest := hcourse.finds (finds_findAll hat)
  obtain ⟨all, hall, -⟩ := h _ hrest
  cases hfound : t.findAll with
  | error f =>
    rw [hfound] at hall
    cases hall
  | ok more =>
    rw [hfound] at hrest
    exact ⟨apps ++ more, by simp, hrest⟩

theorem Succeeds.perm {expected other : List Appearance} (h : s.Succeeds expected)
    (hp : expected.Perm other) : s.Succeeds other := by
  refine ⟨?_, fun outcome hfinds => ?_, h.continues⟩
  · obtain ⟨apps, hfound, hperm⟩ := h.collected
    exact ⟨apps, hfound, hperm.trans hp⟩
  · obtain ⟨apps, hfound, hperm⟩ := h.finds outcome hfinds
    exact ⟨apps, hfound, hperm.trans hp⟩

/-- Whatever the order of the moves, a consumer that reads the scan to its end meets a failure. -/
def Fails (s : Scan) : Prop :=
  (∃ f, s.findAll = .error f) ∧ ∀ outcome, s.Finds outcome → ∃ f, outcome = .error f

theorem fails_of_unlisted (hs : s.Fresh) (h : s.source.names.isOk = false) : s.Fails := by
  have hunlisted : ∀ names, s.names? ≠ .ok names := by
    intro names hnames
    unfold names? at hnames
    cases hsource : s.source.names with
    | ok all =>
      rw [hsource] at h
      cases h
    | error f =>
      rw [hsource] at hnames
      cases hnames
  have hall := fun outcome (hfinds : s.Finds outcome) => hfinds.error_of_unlisted hs hunlisted
  exact ⟨hall _ (finds_findAll hs.abandoned), hall⟩

end Scan

end AppearanceIndex
