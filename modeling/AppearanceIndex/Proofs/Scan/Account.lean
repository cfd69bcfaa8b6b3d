import AppearanceIndex.Proofs.Scan.Course

/-!
# Following names through a scan

What a scan can send is a matter of its source: whether the listing succeeds, what each filter
answers (`Scan.answer`) and what each chunk holds (`Scan.found`). `Scan.Concludes` says what was
sent when the extractor has ended: all appearances of all names that pass, or those of some of them
and then a failure that the source causes.

The invariant is `Scan.Stands`. A task sends the name of a positive answer into the hits once, the
hits are what was `queued` and not taken yet, and the extractor has sent whole groups of
appearances but for the one it is sending.
-/

namespace AppearanceIndex

namespace Scan

section Source

variable (s : Scan)

/-- The names that stand for a range, or why they cannot be listed. -/
def names? : Except Failure (List String) :=
  ((Activity.listBlooms s.chain).around s.source.names).map RangeSource.rangeNames

/-- The names that stand for a range; none if they cannot be listed. -/
def ranges : List String := s.names?.toOption.getD []

/-- What the filter of a name says of the address. -/
def answer (name : String) : Except Failure Bool := s.source.mayContain s.address name

/-- What the chunk of a name holds of the address. -/
def found (name : String) : Except Failure (List Appearance) := s.source.extract s.address name

def passes (name : String) : Bool := s.answer name matches .ok true

def positives : List String := s.ranges.filter s.passes

/-- The appearances in the chunk of a name; none if it cannot be searched. -/
def appearances (name : String) : List Appearance := (s.found name).toOption.getD []

/-- The appearances in the chunks of names, as they are sent. -/
def told (names : List String) : List (Except Failure Appearance) :=
  (names.flatMap s.appearances).map .ok

/-- The listing or the filter of a listed name fails so. -/
def Blames (f : Failure) : Prop :=
  s.names? = .error f ∨ ∃ name ∈ s.ranges, s.answer name = .error f

def Searchable (names : List String) : Prop := ∀ name ∈ names, ∃ apps, s.found name = .ok apps

/-- What was sent when the extractor ended. -/
inductive Concludes : List (Except Failure Appearance) → Prop where
  | complete {names : List String} (hl : ∃ names, s.names? = .ok names)
      (ha : ∀ name ∈ s.ranges, ∃ b, s.answer name = .ok b) (hp : names.Perm s.positives)
      (hs : s.Searchable names) : Concludes (s.told names)
  | failed {names rest : List String} {f : Failure} (hp : (names ++ rest).Perm s.positives)
      (hs : s.Searchable names) (hf : s.Blames f ∨ ∃ name ∈ s.positives, s.found name = .error f) :
      Concludes (s.told names ++ [.error f])

/-! ## The invariant -/

/-- The phase of a task agrees with the answer of its filter. -/
def TaskFits (task : String × BloomTask) : Prop :=
  match task.2 with
  | .testing | .collected => True
  | .hitting => s.answer task.1 = .ok true
  | .finished (.ok ()) => ∃ b, s.answer task.1 = .ok b
  | .finished (.error f) => s.answer task.1 = .error f

def isSent (task : String × BloomTask) : Bool := isFinished task.2 && s.passes task.1

def sentNames (tasks : List (String × BloomTask)) : List String :=
  (tasks.filter s.isSent).map Prod.fst

def hitNames (queued : List (Except Failure String)) : List String :=
  queued.filterMap Except.toOption

theorem taskFits_tested (name : String) :
    s.TaskFits (name, tested (s.answer name)) ∧ tested (s.answer name) ≠ .collected ∧
      s.isSent (name, tested (s.answer name)) = false := by
  unfold isSent passes
  cases h : s.answer name with
  | error f => exact ⟨h, by simp [tested], by simp⟩
  | ok b =>
    cases b with
    | true => exact ⟨h, by simp [tested], rfl⟩
    | false => exact ⟨⟨false, h⟩, by simp [tested], by simp⟩

inductive ReporterFits (queued : List (Except Failure String)) (tasks : List (String × BloomTask))
    (extracted : Bool) : Reporter → Prop where
  | listing (ht : tasks = []) (hq : queued = []) : ReporterFits queued tasks extracted .listing
  | collecting (hl : ∃ names, s.names? = .ok names)
      (hc : ∀ task ∈ tasks, task.2 = .collected → ∃ b, s.answer task.1 = .ok b) :
      ReporterFits queued tasks extracted .collecting
  | failing {f : Failure} (hf : s.Blames f) : ReporterFits queued tasks extracted (.failing f)
  | collected (hl : ∃ names, s.names? = .ok names)
      (hc : ∀ name ∈ s.ranges, ∃ b, s.answer name = .ok b) :
      ReporterFits queued tasks extracted .ended
  | reported {f : Failure} (hq : .error f ∈ queued) : ReporterFits queued tasks extracted .ended
  | dropped (he : extracted = true) : ReporterFits queued tasks extracted .ended

inductive ExtractorFits (queued hits : List (Except Failure String)) :
    List (Except Failure Appearance) → Extractor → Prop where
  | receiving {names : List String} (hs : s.Searchable names)
      (hq : queued = names.map .ok ++ hits) : ExtractorFits queued hits (s.told names) .receiving
  | searching {names : List String} {name : String} (hs : s.Searchable names)
      (hq : queued = (names ++ [name]).map .ok ++ hits) :
      ExtractorFits queued hits (s.told names) (.searching name)
  | sending {names : List String} {name : String} {apps rest : List Appearance}
      (hs : s.Searchable names) (hq : queued = (names ++ [name]).map .ok ++ hits)
      (hf : s.found name = .ok (apps ++ rest)) :
      ExtractorFits queued hits (s.told names ++ apps.map .ok) (.sending rest)
  | unsearchable {names : List String} {name : String} {f : Failure} (hs : s.Searchable names)
      (hq : queued = (names ++ [name]).map .ok ++ hits) (hf : s.found name = .error f) :
      ExtractorFits queued hits (s.told names) (.failing f)
  | told {names : List String} {f : Failure} (hs : s.Searchable names)
      (hq : queued = names.map .ok ++ .error f :: hits) :
      ExtractorFits queued hits (s.told names) (.failing f)
  | ended {emitted : List (Except Failure Appearance)} (hc : s.Concludes emitted) :
      ExtractorFits queued hits emitted .ended

/-- Where a scan stands that began as `s`, with what the hits have received and what the extractor
has sent. -/
structure Stands (queued : List (Except Failure String))
    (emitted : List (Except Failure Appearance)) (t : Scan) : Prop where
  source : t.source = s.source
  address : t.address = s.address
  chain : t.chain = s.chain
  names : t.reporter ≠ .listing → t.tasks.map Prod.fst = s.ranges
  tasks : ∀ task ∈ t.tasks, s.TaskFits task
  blamed : ∀ f, .error f ∈ queued → s.Blames f
  reporter : s.ReporterFits queued t.tasks t.extractorEnded t.reporter
  sent : t.extractorEnded = false → (hitNames queued).Perm (s.sentNames t.tasks)
  extractor : s.ExtractorFits queued t.hits emitted t.extractor

end Source

variable {s t u : Scan}

/-! ## Tasks -/

theorem map_fst_set {tasks : List (String × BloomTask)} {i : Nat} {name : String}
    {phase after : BloomTask} (h : tasks[i]? = some (name, phase)) :
    (tasks.set i (name, after)).map Prod.fst = tasks.map Prod.fst := by
  rw [List.map_set]
  refine List.ext_getElem? fun j => ?_
  by_cases hj : i = j
  · subst hj
    obtain ⟨hlt, heq⟩ := List.getElem?_eq_some_iff.mp h
    simp [hlt, heq]
  · simp [hj]

theorem sentNames_set_of_eq {tasks : List (String × BloomTask)} {i : Nat} {name : String}
    {phase after : BloomTask} (h : tasks[i]? = some (name, phase))
    (hs : s.isSent (name, after) = s.isSent (name, phase)) :
    s.sentNames (tasks.set i (name, after)) = s.sentNames tasks := by
  unfold sentNames
  induction tasks generalizing i with
  | nil => cases h
  | cons task tasks ih =>
    cases i with
    | zero =>
      cases h
      rw [List.set_cons_zero, List.filter_cons, List.filter_cons, hs]
      split <;> rfl
    | succ i =>
      rw [List.set_cons_succ, List.filter_cons, List.filter_cons]
      have hrest := ih h
      split
      · rw [List.map_cons, List.map_cons, hrest]
      · exact hrest

theorem sentNames_set_of_sent {tasks : List (String × BloomTask)} {i : Nat} {name : String}
    {phase after : BloomTask} (h : tasks[i]? = some (name, phase))
    (hs : s.isSent (name, phase) = false) (ha : s.isSent (name, after) = true) :
    (s.sentNames (tasks.set i (name, after))).Perm (s.sentNames tasks ++ [name]) := by
  unfold sentNames
  induction tasks generalizing i with
  | nil => cases h
  | cons task tasks ih =>
    cases i with
    | zero =>
      cases h
      rw [List.set_cons_zero, List.filter_cons, List.filter_cons, hs, ha]
      exact (List.perm_append_singleton _ _).symm
    | succ i =>
      rw [List.set_cons_succ, List.filter_cons, List.filter_cons]
      have hrest := ih h
      split
      · exact hrest.cons _
      · exact hrest

/-- Names that were sent passed their filters. -/
theorem Stands.sent_append {queued : List (Except Failure String)}
    {emitted : List (Except Failure Appearance)} (h : s.Stands queued emitted t)
    (hr : t.reporter ≠ .listing) :
    ∃ rest, (s.sentNames t.tasks ++ rest).Perm s.positives := by
  have hpositives : s.positives = (t.tasks.filter fun task => s.passes task.1).map Prod.fst := by
    unfold positives
    rw [← h.names hr, List.filter_map]
    rfl
  have hsent : s.sentNames t.tasks = ((t.tasks.filter fun task => s.passes task.1).filter
      fun task => isFinished task.2).map Prod.fst := by
    unfold sentNames
    rw [List.filter_filter]
    rfl
  refine ⟨((t.tasks.filter fun task => s.passes task.1).filter
    fun task => !isFinished task.2).map Prod.fst, ?_⟩
  rw [hpositives, hsent, ← List.map_append]
  exact (List.filter_append_perm _ _).map Prod.fst

/-- When all tasks have finished, the names that were sent are all that passed. -/
theorem Stands.sentNames_eq {queued : List (Except Failure String)}
    {emitted : List (Except Failure Appearance)} (h : s.Stands queued emitted t)
    (hr : t.reporter ≠ .listing) (hall : ∀ task ∈ t.tasks, isFinished task.2 = true) :
    s.sentNames t.tasks = s.positives := by
  unfold sentNames positives
  rw [← h.names hr, List.filter_map]
  refine congrArg _ (List.filter_congr fun task hmem => ?_)
  simp [isSent, hall task hmem]

/-! ## Moves of the reporter and of the tasks -/

section Moves

variable {queued : List (Except Failure String)} {received : List (Except Failure Appearance)}

/-- The reporter stands where it stood when the hits gained an entry, a task that it has not
collected moved, or the extractor ended. -/
theorem ReporterFits.change {more : List (Except Failure String)}
    {tasks after : List (String × BloomTask)} {extracted ended : Bool} {reporter : Reporter}
    (h : s.ReporterFits queued tasks extracted reporter) (hr : reporter ≠ .listing)
    (ht : reporter = .collecting → ∀ task ∈ after, task.2 = .collected →
      task ∈ tasks ∨ ∃ b, s.answer task.1 = .ok b)
    (he : extracted = true → ended = true) :
    s.ReporterFits (queued ++ more) after ended reporter := by
  cases h with
  | listing => exact absurd rfl hr
  | collecting hl hc =>
    refine .collecting hl fun task hmem hcollected => ?_
    rcases ht rfl task hmem hcollected with hold | hok
    · exact hc task hold hcollected
    · exact hok
  | failing hf => exact .failing hf
  | collected hl hc => exact .collected hl hc
  | reported hq => exact .reported (List.mem_append_left _ hq)
  | dropped hx => exact .dropped (he hx)

theorem Stands.listed {emitted : List (Except Failure Appearance)}
    (h : s.Stands queued emitted t) {i : Nat} {task : String × BloomTask}
    (hi : t.tasks[i]? = some task) : t.reporter ≠ .listing := by
  intro hr
  have hreporter := h.reporter
  rw [hr] at hreporter
  cases hreporter with
  | listing ht =>
    rw [ht] at hi
    cases hi

/-- A task moved on without sending its name. -/
theorem Stands.set {emitted : List (Except Failure Appearance)} (h : s.Stands queued emitted t)
    {i : Nat} {name : String} {phase after : BloomTask} (hi : t.tasks[i]? = some (name, phase))
    (hfits : s.TaskFits (name, after))
    (hok : t.reporter = .collecting → after = .collected → ∃ b, s.answer name = .ok b)
    (hs : t.extractorEnded = false → s.isSent (name, after) = s.isSent (name, phase)) :
    s.Stands queued emitted { t with tasks := t.tasks.set i (name, after) } where
  source := h.source
  address := h.address
  chain := h.chain
  names := fun hr => (map_fst_set hi).trans (h.names hr)
  tasks := by
    intro task hmem
    rcases List.mem_or_eq_of_mem_set hmem with hmem | rfl
    · exact h.tasks task hmem
    · exact hfits
  blamed := h.blamed
  reporter := by
    have hchange : s.ReporterFits (queued ++ []) (t.tasks.set i (name, after)) t.extractorEnded
        t.reporter := by
      refine h.reporter.change (h.listed hi) ?_ id
      intro hr task hmem hcollected
      rcases List.mem_or_eq_of_mem_set hmem with hmem | rfl
      · exact .inl hmem
      · exact .inr (hok hr hcollected)
    rwa [List.append_nil] at hchange
  sent := by
    intro he
    rw [sentNames_set_of_eq hi (hs he)]
    exact h.sent he
  extractor := h.extractor

theorem ExtractorFits.push {hits more : List (Except Failure String)}
    {emitted : List (Except Failure Appearance)} {extractor : Extractor}
    (h : s.ExtractorFits queued hits emitted extractor) :
    s.ExtractorFits (queued ++ more) (hits ++ more) emitted extractor := by
  cases h with
  | receiving hs hq => exact .receiving hs (by rw [hq, List.append_assoc])
  | searching hs hq => exact .searching hs (by rw [hq, List.append_assoc])
  | sending hs hq hf => exact .sending hs (by rw [hq, List.append_assoc]) hf
  | unsearchable hs hq hf => exact .unsearchable hs (by rw [hq, List.append_assoc]) hf
  | told hs hq => exact .told hs (by rw [hq, List.append_assoc]; rfl)
  | ended hc => exact .ended hc

theorem Stands.list {emitted : List (Except Failure Appearance)} (h : s.Stands queued emitted t)
    (hr : t.reporter = .listing) : s.Stands queued emitted t.list := by
  have hreporter := h.reporter
  rw [hr] at hreporter
  obtain ⟨htasks, rfl⟩ : t.tasks = [] ∧ queued = [] := by
    cases hreporter with
    | listing ht hq => exact ⟨ht, hq⟩
  have hlist : s.names? = ((Activity.listBlooms t.chain).around t.source.names).map
      RangeSource.rangeNames := by
    rw [h.chain, h.source]
    rfl
  have hnone : t.extractorEnded = false → (hitNames []).Perm (s.sentNames []) := fun _ => .nil
  unfold Scan.list
  cases hl : (Activity.listBlooms t.chain).around t.source.names with
  | error f =>
    rw [hl] at hlist
    have hranges : s.ranges = [] := by
      unfold ranges
      rw [hlist]
      rfl
    exact
      { source := h.source
        address := h.address
        chain := h.chain
        names := fun _ => by rw [htasks, hranges]; rfl
        tasks := h.tasks
        blamed := h.blamed
        reporter := .failing (.inl hlist)
        sent := by rw [htasks]; exact hnone
        extractor := h.extractor }
  | ok names =>
    rw [hl] at hlist
    have hranges : s.ranges = RangeSource.rangeNames names := by
      unfold ranges
      rw [hlist]
      rfl
    have hsent : s.sentNames ((RangeSource.rangeNames names).map fun name => (name, .testing)) =
        [] := by
      unfold sentNames
      rw [List.filter_eq_nil_iff.mpr, List.map_nil]
      intro task hmem
      obtain ⟨name, -, rfl⟩ := List.mem_map.mp hmem
      simp [isSent, isFinished]
    exact
      { source := h.source
        address := h.address
        chain := h.chain
        names := fun _ => by rw [hranges]; simp [Function.comp_def]
        tasks := by
          intro task hmem
          obtain ⟨name, -, rfl⟩ := List.mem_map.mp hmem
          trivial
        blamed := h.blamed
        reporter := by
          refine .collecting ⟨_, hlist⟩ fun task hmem hcollected => ?_
          obtain ⟨name, -, rfl⟩ := List.mem_map.mp hmem
          cases hcollected
        sent := fun _ => by rw [hsent]; exact .nil
        extractor := h.extractor }

/-- The reporter moved on. -/
theorem Stands.report {emitted : List (Except Failure Appearance)}
    (h : s.Stands queued emitted t) (hr : t.reporter ≠ .listing) {reporter : Reporter}
    (hn : s.ReporterFits queued t.tasks t.extractorEnded reporter) :
    s.Stands queued emitted { t with reporter } where
  source := h.source
  address := h.address
  chain := h.chain
  names := fun _ => h.names hr
  tasks := h.tasks
  blamed := h.blamed
  reporter := hn
  sent := h.sent
  extractor := h.extractor

theorem Stands.reportFailure {emitted : List (Except Failure Appearance)}
    (h : s.Stands queued emitted t) {f : Failure} (hr : t.reporter = .failing f) :
    s.Stands (queued ++ [.error f]) emitted
      { t with hits := t.hits ++ [.error f], reporter := .ended } where
  source := h.source
  address := h.address
  chain := h.chain
  names := fun _ => h.names (by rw [hr]; simp)
  tasks := h.tasks
  blamed := by
    intro g hmem
    rcases List.mem_append.mp hmem with hmem | hmem
    · exact h.blamed g hmem
    · cases List.mem_singleton.mp hmem
      have hreporter := h.reporter
      rw [hr] at hreporter
      cases hreporter with
      | failing hf => exact hf
  reporter := .reported (List.mem_append_right queued (List.mem_singleton_self (Except.error f)))
  sent := by
    intro he
    have hnames : hitNames (queued ++ [.error f]) = hitNames queued := by
      unfold hitNames
      rw [List.filterMap_append]
      exact List.append_nil _
    rw [hnames]
    exact h.sent he
  extractor := h.extractor.push

theorem Stands.hit {emitted : List (Except Failure Appearance)} (h : s.Stands queued emitted t)
    {i : Nat} {name : String} (hi : t.tasks[i]? = some (name, .hitting)) :
    s.Stands (queued ++ [.ok name]) emitted
      { t with
        tasks := t.tasks.set i (name, .finished (.ok ()))
        hits := t.hits ++ [.ok name] } := by
  have hpasses : s.answer name = .ok true := h.tasks _ (List.mem_of_getElem? hi)
  exact
    { source := h.source
      address := h.address
      chain := h.chain
      names := fun hr => (map_fst_set hi).trans (h.names hr)
      tasks := by
        intro task hmem
        rcases List.mem_or_eq_of_mem_set hmem with hmem | rfl
        · exact h.tasks task hmem
        · exact ⟨true, hpasses⟩
      blamed := by
        intro g hmem
        rcases List.mem_append.mp hmem with hmem | hmem
        · exact h.blamed g hmem
        · cases List.mem_singleton.mp hmem
      reporter := by
        refine h.reporter.change (h.listed hi) ?_ id
        intro _ task hmem hcollected
        rcases List.mem_or_eq_of_mem_set hmem with hmem | rfl
        · exact .inl hmem
        · cases hcollected
      sent := by
        intro he
        have hset : (s.sentNames (t.tasks.set i (name, .finished (.ok ())))).Perm
            (s.sentNames t.tasks ++ [name]) :=
          sentNames_set_of_sent hi (by simp [isSent, isFinished])
            (by simp [isSent, isFinished, passes, hpasses])
        have hnames : hitNames (queued ++ [.ok name]) = hitNames queued ++ [name] := by
          unfold hitNames
          rw [List.filterMap_append]
          rfl
        rw [hnames]
        exact ((h.sent he).append_right _).trans hset.symm
      extractor := h.extractor.push }

/-! ## Moves of the extractor -/

/-- The extractor moved on, and with it perhaps the hits and the output. -/
theorem Stands.extract {emitted after : List (Except Failure Appearance)}
    (h : s.Stands queued emitted t) {extractor : Extractor} {hits : List (Except Failure String)}
    {output : List (Except Failure Appearance)} (hx : t.extractorEnded = false)
    (he : s.ExtractorFits queued hits after extractor) :
    s.Stands queued after { t with extractor, hits, output } where
  source := h.source
  address := h.address
  chain := h.chain
  names := h.names
  tasks := h.tasks
  blamed := h.blamed
  reporter := by
    by_cases hr : t.reporter = .listing
    · have hreporter := h.reporter
      rw [hr] at hreporter
      show s.ReporterFits queued t.tasks _ t.reporter
      rw [hr]
      cases hreporter with
      | listing ht hq => exact .listing ht hq
    · have hchange : s.ReporterFits (queued ++ []) t.tasks
          { t with extractor, hits, output }.extractorEnded t.reporter :=
        h.reporter.change hr (fun _ task hmem _ => .inl hmem)
          (fun hn => by rw [hx] at hn; cases hn)
      rwa [List.append_nil] at hchange
  sent := fun _ => h.sent hx
  extractor := he

/-- The names that the hits received are among those that passed. -/
theorem Stands.hitNames_append {emitted : List (Except Failure Appearance)}
    (h : s.Stands queued emitted t) (hx : t.extractorEnded = false) :
    ∃ rest, (hitNames queued ++ rest).Perm s.positives := by
  by_cases hr : t.reporter = .listing
  · have hreporter := h.reporter
    rw [hr] at hreporter
    cases hreporter with
    | listing ht hq =>
      rw [hq]
      exact ⟨s.positives, .refl _⟩
  · obtain ⟨rest, hrest⟩ := h.sent_append hr
    exact ⟨rest, ((h.sent hx).append_right rest).trans hrest⟩

/-- The names of the hits are among those that passed. -/
theorem Stands.positive {emitted : List (Except Failure Appearance)} {names : List String}
    {hits : List (Except Failure String)} (h : s.Stands queued emitted t)
    (hx : t.extractorEnded = false) (hq : queued = names.map .ok ++ hits) :
    ∃ rest, (names ++ rest).Perm s.positives := by
  obtain ⟨rest, hrest⟩ := h.hitNames_append hx
  have hnames : hitNames queued = names ++ hitNames hits := by
    unfold hitNames
    rw [hq, List.filterMap_append, List.filterMap_map]
    exact congrArg (· ++ _) List.filterMap_some
  rw [hnames, List.append_assoc] at hrest
  exact ⟨_, hrest⟩

/-- The extractor ends behind the last hit. -/
theorem Stands.concludes_of_close {emitted : List (Except Failure Appearance)}
    (h : s.Stands queued emitted t) (he : t.extractor = .receiving) (hh : t.hits = [])
    (hr : t.reporter = .ended) (hall : ∀ task ∈ t.tasks, isFinished task.2 = true) :
    s.Concludes emitted := by
  have hx : t.extractorEnded = false := by
    unfold extractorEnded
    rw [he]
  have hextractor := h.extractor
  rw [he, hh] at hextractor
  cases hextractor with
  | @receiving names hs hq =>
    rw [List.append_nil] at hq
    have hreporter := h.reporter
    rw [hr] at hreporter
    cases hreporter with
    | collected hl hc =>
      refine .complete hl hc ?_ hs
      rw [← h.sentNames_eq (by rw [hr]; simp) hall]
      have hnames : hitNames queued = names := by
        unfold hitNames
        rw [hq, List.filterMap_map]
        exact List.filterMap_some
      rw [← hnames]
      exact h.sent hx
    | reported hf =>
      rw [hq] at hf
      obtain ⟨name, -, heq⟩ := List.mem_map.mp hf
      cases heq
    | dropped he' =>
      rw [hx] at he'
      cases he'

/-- The extractor ends behind a failure. -/
theorem Stands.concludes_of_failure {emitted : List (Except Failure Appearance)}
    (h : s.Stands queued emitted t) {f : Failure} (he : t.extractor = .failing f) :
    s.Concludes (emitted ++ [.error f]) := by
  have hx : t.extractorEnded = false := by
    unfold extractorEnded
    rw [he]
  have hextractor := h.extractor
  rw [he] at hextractor
  cases hextractor with
  | @unsearchable names name _ hs hq hf =>
    obtain ⟨rest, hrest⟩ := h.positive hx hq
    have hmem : name ∈ s.positives := hrest.subset (by simp)
    rw [List.append_assoc] at hrest
    exact .failed hrest hs (.inr ⟨name, hmem, hf⟩)
  | @told names _ hs hq =>
    obtain ⟨rest, hrest⟩ := h.positive hx hq
    exact .failed hrest hs (.inl (h.blamed f (by rw [hq]; simp)))

theorem Transition.extractor_open (h : t.Transition .extract none u) (ha : t.abandoned = false) :
    t.extractorEnded = false := by
  unfold extractorEnded
  cases h with
  | takeHit he | takeFailure he | close he | search he | searchFailure he | sent he | emit he
  | emitFailure he => rw [he]
  | giveUp hn =>
    rw [ha] at hn
    cases hn

/-- The extractor's move, while the consumer is there. -/
theorem Stands.extractorMove (h : s.Stands queued (received ++ t.output) t)
    (ha : t.abandoned = false) (ht : t.Transition .extract none u) :
    s.Stands queued (received ++ u.output) u := by
  have hx := ht.extractor_open ha
  have hextractor := h.extractor
  generalize hemitted : received ++ t.output = emitted at hextractor
  cases ht with
  | @takeHit name hits he hh =>
    rw [he, hh] at hextractor
    refine h.extract hx ?_
    rw [hemitted]
    cases hextractor with
    | receiving hs hq => exact .searching hs (by rw [hq]; simp)
  | @takeFailure f hits he hh =>
    rw [he, hh] at hextractor
    refine h.extract hx ?_
    rw [hemitted]
    cases hextractor with
    | receiving hs hq => exact .told hs hq
  | close he hh hr hall =>
    exact h.extract hx (.ended (h.concludes_of_close he hh hr hall))
  | @search name apps he hfound =>
    rw [he] at hextractor
    rw [h.source, h.address] at hfound
    refine h.extract hx ?_
    rw [hemitted]
    cases hextractor with
    | @searching names _ hs hq =>
      have hsending : s.ExtractorFits queued t.hits (s.told names ++ [].map .ok) (.sending apps) :=
        .sending hs hq hfound
      rwa [List.map_nil, List.append_nil] at hsending
  | @searchFailure name f he hfound =>
    rw [he] at hextractor
    rw [h.source, h.address] at hfound
    refine h.extract hx ?_
    rw [hemitted]
    cases hextractor with
    | searching hs hq => exact .unsearchable hs hq hfound
  | sent he =>
    rw [he] at hextractor
    refine h.extract hx ?_
    rw [hemitted]
    cases hextractor with
    | @sending names name apps _ hs hq hf =>
      rw [List.append_nil] at hf
      have htold : s.told (names ++ [name]) = s.told names ++ apps.map .ok := by
        simp [told, appearances, hf, Except.toOption]
      rw [← htold]
      refine .receiving ?_ hq
      intro other hmem
      rcases List.mem_append.mp hmem with hmem | hmem
      · exact hs other hmem
      · rw [List.mem_singleton.mp hmem]
        exact ⟨apps, hf⟩
  | @emit app apps he _ =>
    rw [he] at hextractor
    refine h.extract hx ?_
    rw [← List.append_assoc, hemitted]
    cases hextractor with
    | @sending names name sent _ hs hq hf =>
      have hsending : s.ExtractorFits queued t.hits (s.told names ++ (sent ++ [app]).map .ok)
          (.sending apps) := .sending hs hq (by rw [hf]; simp)
      rwa [List.map_append, ← List.append_assoc] at hsending
  | @emitFailure f he _ =>
    refine h.extract hx ?_
    rw [← List.append_assoc]
    exact .ended (h.concludes_of_failure he)
  | giveUp hn =>
    rw [ha] at hn
    cases hn

theorem Transition.of_extract {entry : Option (Except Failure Appearance)}
    (h : t.Transition .extract entry u) : entry = none ∧ u.abandoned = t.abandoned := by
  cases h <;> exact ⟨rfl, rfl⟩

/-- The hits gained no entry. -/
theorem Stands.same {emitted : List (Except Failure Appearance)}
    {hits : List (Except Failure String)} (h : s.Stands queued emitted u) (hh : u.hits = hits) :
    ∃ more, s.Stands (queued ++ more) emitted u ∧ u.hits = hits ++ more :=
  ⟨[], by rwa [List.append_nil], by rw [hh, List.append_nil]⟩

/-- A move that is not the extractor's may add entries to the hits. -/
theorem Stands.otherMove (h : s.Stands queued (received ++ t.output) t) {move : ScanMove}
    {entry : Option (Except Failure Appearance)} (ht : t.Transition move entry u)
    (hm : move ≠ .extract) (hu : u.abandoned = false) :
    ∃ more, s.Stands (queued ++ more) (received ++ entry.toList ++ u.output) u ∧
      u.hits = t.hits ++ more := by
  cases ht with
  | list hr =>
    have hlisted := h.list hr
    obtain ⟨houtput, hhits⟩ : t.list.output = t.output ∧ t.list.hits = t.hits := by
      unfold Scan.list
      split <;> exact ⟨rfl, rfl⟩
    rw [houtput, Option.toList_none, List.append_nil]
    exact hlisted.same hhits
  | allCollected hr hall =>
    rw [Option.toList_none, List.append_nil]
    have hreporter := h.reporter
    have hnames := h.names (by rw [hr]; simp)
    rw [hr] at hreporter
    refine Stands.same (h.report (by rw [hr]; simp) ?_) rfl
    cases hreporter with
    | collecting hl hc =>
      refine .collected hl fun name hmem => ?_
      rw [← hnames] at hmem
      obtain ⟨task, htask, rfl⟩ := List.mem_map.mp hmem
      exact hc task htask (hall task htask)
  | dropFailure hr he =>
    rw [Option.toList_none, List.append_nil]
    exact Stands.same (h.report (by rw [hr]; simp) (.dropped he)) rfl
  | @reportFailure f hr he =>
    rw [Option.toList_none, List.append_nil]
    exact ⟨[.error f], h.reportFailure hr, rfl⟩
  | @test i name hi =>
    have hanswer : t.source.mayContain t.address name = s.answer name := by
      rw [h.source, h.address]
      rfl
    rw [Option.toList_none, List.append_nil, hanswer]
    obtain ⟨hfits, hcollected, hsent⟩ := s.taskFits_tested name
    exact Stands.same (h.set hi hfits (fun _ heq => absurd heq hcollected) fun _ => hsent) rfl
  | @dropHit i name hi he =>
    rw [Option.toList_none, List.append_nil]
    have hpasses : s.answer name = .ok true := h.tasks _ (List.mem_of_getElem? hi)
    refine Stands.same (h.set hi ⟨true, hpasses⟩ (fun _ heq => by cases heq) fun hn => ?_) rfl
    rw [he] at hn
    cases hn
  | @hit i name hi he =>
    rw [Option.toList_none, List.append_nil]
    exact ⟨[.ok name], h.hit hi, rfl⟩
  | @collect i name hr hi =>
    rw [Option.toList_none, List.append_nil]
    have hanswer : ∃ b, s.answer name = .ok b := h.tasks _ (List.mem_of_getElem? hi)
    exact Stands.same (h.set hi trivial (fun _ _ => hanswer) fun _ => rfl) rfl
  | @collectFailure i name f hr hi =>
    rw [Option.toList_none, List.append_nil]
    have hanswer : s.answer name = .error f := h.tasks _ (List.mem_of_getElem? hi)
    have hname : name ∈ s.ranges := by
      rw [← h.names (by rw [hr]; simp)]
      exact List.mem_map_of_mem (List.mem_of_getElem? hi)
    have hfailing := h.report (by rw [hr]; simp) (.failing (.inr ⟨name, hname, hanswer⟩))
    exact Stands.same (hfailing.set hi trivial (fun heq => by cases heq) fun _ => rfl) rfl
  | @receive e output _ ho =>
    rw [ho] at h
    have hsame : received ++ [e] ++ output = received ++ e :: output := by simp
    rw [Option.toList_some, hsame]
    have hreceived : s.Stands queued (received ++ e :: output) { t with output } := { h with }
    exact hreceived.same rfl
  | abandon => cases hu
  | takeHit | takeFailure | close | search | searchFailure | sent | emit | emitFailure | giveUp =>
    exact absurd rfl hm

/-- Every move keeps account of the names while the consumer is there. -/
theorem Stands.step (h : s.Stands queued (received ++ t.output) t) {move : ScanMove}
    {entry : Option (Except Failure Appearance)} (ht : t.Transition move entry u)
    (hu : u.abandoned = false) :
    ∃ after, s.Stands after (received ++ entry.toList ++ u.output) u := by
  by_cases hm : move = .extract
  · subst hm
    obtain ⟨rfl, ha⟩ := ht.of_extract
    refine ⟨queued, ?_⟩
    rw [Option.toList_none, List.append_nil]
    exact h.extractorMove (ha ▸ hu) ht
  · obtain ⟨more, hstands, -⟩ := h.otherMove ht hm hu
    exact ⟨_, hstands⟩

end Moves

end Scan

end AppearanceIndex
