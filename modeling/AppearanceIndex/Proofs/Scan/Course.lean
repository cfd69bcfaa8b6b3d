import AppearanceIndex.Scan.Pipeline

/-!
# Courses of a scan

`Scan.Course` is any sequence of moves, with what the consumer received. `Scan.Transition` lists
what one move can do. A consumer that reads to the end finds a list of appearances or a failure
(`Scan.Finds`); which one, and which appearances, is a matter of the source alone.
-/

namespace AppearanceIndex

namespace Scan

/-- A sequence of moves from one state of a scan to another, and what the consumer received. -/
inductive Course (s : Scan) : List (Except Failure Appearance) → Scan → Prop where
  | start : Course s [] s
  | step {received : List (Except Failure Appearance)} {t u : Scan} {move : ScanMove}
      {entry : Option (Except Failure Appearance)} :
      Course s received t → t.step move = some (entry, u) →
      Course s (received ++ entry.toList) u

theorem Course.trans {s t u : Scan} {received more : List (Except Failure Appearance)}
    (h1 : s.Course received t) (h2 : t.Course more u) : s.Course (received ++ more) u := by
  induction h2 with
  | start => simpa using h1
  | step _ hs ih =>
    rw [← List.append_assoc]
    exact .step ih hs

/-- The output has ended for a consumer that has received all of it. -/
def Exhausted (s : Scan) : Prop :=
  s.abandoned = false ∧ s.output = [] ∧ s.extractorEnded = true

/-- What a consumer can receive until the output ends, or until it gives this failure. -/
def Ends (s : Scan) (apps : List Appearance) : Option Failure → Prop
  | none => ∃ t, s.Course (apps.map .ok) t ∧ t.Exhausted
  | some f => ∃ t, s.Course (apps.map .ok ++ [.error f]) t ∧ t.abandoned = false

/-- What a consumer can find that receives until the output ends or gives a failure. -/
def Finds (s : Scan) : Except Failure (List Appearance) → Prop
  | .ok apps => ∃ t, s.Course (apps.map .ok) t ∧ t.Exhausted
  | .error f => ∃ (apps : List Appearance) (t : Scan),
    s.Course (apps.map .ok ++ [.error f]) t ∧ t.abandoned = false

/-! ## Moves -/

inductive Transition (s : Scan) : ScanMove → Option (Except Failure Appearance) → Scan → Prop where
  | list (hr : s.reporter = .listing) : Transition s .report none s.list
  | allCollected (hr : s.reporter = .collecting)
      (hall : ∀ task ∈ s.tasks, task.2 = .collected) :
      Transition s .report none { s with reporter := .ended }
  | dropFailure {f : Failure} (hr : s.reporter = .failing f) (he : s.extractorEnded = true) :
      Transition s .report none { s with reporter := .ended }
  | reportFailure {f : Failure} (hr : s.reporter = .failing f) (he : s.extractorEnded = false) :
      Transition s .report none { s with hits := s.hits ++ [.error f], reporter := .ended }
  | test {i : Nat} {name : String} (hi : s.tasks[i]? = some (name, .testing)) :
      Transition s (.task i) none
        { s with tasks := s.tasks.set i (name, tested (s.source.mayContain s.address name)) }
  | dropHit {i : Nat} {name : String} (hi : s.tasks[i]? = some (name, .hitting))
      (he : s.extractorEnded = true) :
      Transition s (.task i) none { s with tasks := s.tasks.set i (name, .finished (.ok ())) }
  | hit {i : Nat} {name : String} (hi : s.tasks[i]? = some (name, .hitting))
      (he : s.extractorEnded = false) :
      Transition s (.task i) none
        { s with
          tasks := s.tasks.set i (name, .finished (.ok ()))
          hits := s.hits ++ [.ok name] }
  | collect {i : Nat} {name : String} (hr : s.reporter = .collecting)
      (hi : s.tasks[i]? = some (name, .finished (.ok ()))) :
      Transition s (.collect i) none { s with tasks := s.tasks.set i (name, .collected) }
  | collectFailure {i : Nat} {name : String} {f : Failure} (hr : s.reporter = .collecting)
      (hi : s.tasks[i]? = some (name, .finished (.error f))) :
      Transition s (.collect i) none
        { s with tasks := s.tasks.set i (name, .collected), reporter := .failing f }
  | takeHit {name : String} {hits : List (Except Failure String)} (he : s.extractor = .receiving)
      (hh : s.hits = .ok name :: hits) :
      Transition s .extract none { s with hits, extractor := .searching name }
  | takeFailure {f : Failure} {hits : List (Except Failure String)}
      (he : s.extractor = .receiving) (hh : s.hits = .error f :: hits) :
      Transition s .extract none { s with hits, extractor := .failing f }
  | close (he : s.extractor = .receiving) (hh : s.hits = []) (hr : s.reporter = .ended)
      (hall : ∀ task ∈ s.tasks, isFinished task.2 = true) :
      Transition s .extract none { s with extractor := .ended }
  | search {name : String} {apps : List Appearance} (he : s.extractor = .searching name)
      (hx : s.source.extract s.address name = .ok apps) :
      Transition s .extract none { s with extractor := .sending apps }
  | searchFailure {name : String} {f : Failure} (he : s.extractor = .searching name)
      (hx : s.source.extract s.address name = .error f) :
      Transition s .extract none { s with extractor := .failing f }
  | sent (he : s.extractor = .sending []) :
      Transition s .extract none { s with extractor := .receiving }
  | emit {app : Appearance} {apps : List Appearance} (he : s.extractor = .sending (app :: apps))
      (ha : s.abandoned = false) :
      Transition s .extract none
        { s with output := s.output ++ [.ok app], extractor := .sending apps }
  | emitFailure {f : Failure} (he : s.extractor = .failing f) (ha : s.abandoned = false) :
      Transition s .extract none
        { s with output := s.output ++ [.error f], extractor := .ended }
  | giveUp (ha : s.abandoned = true) :
      Transition s .extract none { s with extractor := .ended }
  | receive {entry : Except Failure Appearance} {output : List (Except Failure Appearance)}
      (ha : s.abandoned = false) (ho : s.output = entry :: output) :
      Transition s .receive (some entry) { s with output }
  | abandon : Transition s .abandon none { s with abandoned := true, output := [] }

variable {s t : Scan}

theorem transition_of_report (h : s.report = some t) : s.Transition .report none t := by
  unfold report at h
  cases hr : s.reporter with
  | listing =>
    simp only [hr] at h
    cases h
    exact .list hr
  | collecting =>
    simp only [hr] at h
    split at h
    · next hall =>
      cases h
      refine .allCollected hr fun task hmem => ?_
      have hone := List.all_eq_true.mp hall task hmem
      split at hone
      · next heq => exact heq
      · cases hone
    · cases h
  | failing f =>
    simp only [hr] at h
    split at h
    · next he =>
      cases h
      exact .dropFailure hr he
    · next he =>
      split at h
      · cases h
        exact .reportFailure hr (by simpa using he)
      · cases h
  | ended =>
    simp only [hr] at h
    cases h

theorem transition_of_runTask {i : Nat} (h : s.runTask i = some t) :
    s.Transition (.task i) none t := by
  unfold runTask at h
  split at h
  · next name hi =>
    cases h
    exact .test hi
  · next name hi =>
    split at h
    · next he =>
      cases h
      exact .dropHit hi he
    · next he =>
      split at h
      · cases h
        exact .hit hi (by simpa using he)
      · cases h
  · cases h

theorem transition_of_collect {i : Nat} (h : s.collect i = some t) :
    s.Transition (.collect i) none t := by
  unfold Scan.collect at h
  split at h
  · next name hr hi =>
    cases h
    exact .collect hr hi
  · next name f hr hi =>
    cases h
    exact .collectFailure hr hi
  · cases h

theorem transition_of_extract (h : s.extract = some t) : s.Transition .extract none t := by
  unfold extract at h
  cases he : s.extractor with
  | receiving =>
    simp only [he] at h
    split at h
    · next name hits hh =>
      cases h
      exact .takeHit he hh
    · next f hits hh =>
      cases h
      exact .takeFailure he hh
    · next hh =>
      split at h
      · next hc =>
        cases h
        unfold hitsClosed at hc
        rw [Bool.and_eq_true, List.all_eq_true] at hc
        refine .close he hh ?_ hc.2
        have hr := hc.1
        split at hr
        · next heq => exact heq
        · cases hr
      · cases h
  | searching name =>
    simp only [he] at h
    split at h
    · next apps hx =>
      cases h
      exact .search he hx
    · next f hx =>
      cases h
      exact .searchFailure he hx
  | sending apps =>
    cases apps with
    | nil =>
      simp only [he] at h
      cases h
      exact .sent he
    | cons app apps =>
      simp only [he, Scan.emit] at h
      split at h
      · next ha =>
        cases h
        exact .giveUp ha
      · next ha =>
        split at h
        · cases h
          exact .emit he (by simpa using ha)
        · cases h
  | failing f =>
    simp only [he, Scan.emit] at h
    split at h
    · next ha =>
      cases h
      exact .giveUp ha
    · next ha =>
      split at h
      · cases h
        exact .emitFailure he (by simpa using ha)
      · cases h
  | ended =>
    simp only [he] at h
    cases h

theorem transition_of_step {move : ScanMove} {entry : Option (Except Failure Appearance)}
    (h : s.step move = some (entry, t)) : s.Transition move entry t := by
  cases move with
  | report =>
    obtain ⟨u, hu, heq⟩ := Option.map_eq_some_iff.mp h
    cases heq
    exact transition_of_report hu
  | task i =>
    obtain ⟨u, hu, heq⟩ := Option.map_eq_some_iff.mp h
    cases heq
    exact transition_of_runTask hu
  | collect i =>
    obtain ⟨u, hu, heq⟩ := Option.map_eq_some_iff.mp h
    cases heq
    exact transition_of_collect hu
  | extract =>
    obtain ⟨u, hu, heq⟩ := Option.map_eq_some_iff.mp h
    cases heq
    exact transition_of_extract hu
  | receive =>
    obtain ⟨⟨entry, u⟩, hu, heq⟩ := Option.map_eq_some_iff.mp h
    cases heq
    unfold receiveNow at hu
    split at hu
    · next ha ho =>
      cases hu
      exact .receive ha ho
    · cases hu
  | abandon =>
    cases h
    exact .abandon

end Scan

end AppearanceIndex
