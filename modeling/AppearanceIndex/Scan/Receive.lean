import AppearanceIndex.Scan.Pipeline
import AppearanceIndex.Total

/-!
# Receiving from a scan

`Scan.receive` runs a scan until its consumer receives something or the output has ended. The
consumer goes first, then the extractor, then the bloom tasks in the order of their names, and the
reporter last. Every move lowers a measure: first whether the listing is still to be made, then what
the tasks and the queues still cost at most. `Scan.findAll` collects everything.
-/

namespace AppearanceIndex

theorem RangeSource.length_of_extract {source : RangeSource} {address : Address} {name : String}
    {apps : List Appearance} (h : source.extract address name = .ok apps) :
    apps.length < UInt32.size := by
  simp only [extract, bind, Except.bind] at h
  split at h
  · cases h
  · split at h
    · cases h
    · next chunk _ =>
      simp only [Activity.ofIndex] at h
      split at h
      · next hg => cases h; exact ChunkFile.length_of_getAppearances hg
      · cases h

namespace Scan

/-! ## The measure of what is left to do -/

def searchWeight : Nat := 2 * UInt32.size + 6

def hitWeight : Except Failure String → Nat
  | .ok _ => searchWeight
  | .error _ => 2

def hitsWeight (hits : List (Except Failure String)) : Nat := total hitWeight hits

def taskWeight : BloomTask → Nat
  | .testing => searchWeight + 3
  | .hitting => searchWeight + 2
  | .finished _ => 1
  | .collected => 0

def tasksWeight (tasks : List (String × BloomTask)) : Nat :=
  total (fun task => taskWeight task.2) tasks

def reporterWeight : Reporter → Nat
  | .listing => 0
  | .collecting => 3
  | .failing _ => 3
  | .ended => 0

def extractorWeight : Extractor → Nat
  | .receiving => 1
  | .searching _ => searchWeight
  | .sending apps => 2 * apps.length + 2
  | .failing _ => 2
  | .ended => 0

/-- The listing is still to be made. -/
def stage : Reporter → Nat
  | .listing => 1
  | _ => 0

/-- What a scan costs once its listing is made. -/
def weight (s : Scan) : Nat :=
  tasksWeight s.tasks + reporterWeight s.reporter + hitsWeight s.hits + extractorWeight s.extractor
    + s.output.length

def measure (s : Scan) : Nat × Nat := (stage s.reporter, s.weight)

def Below : Nat × Nat → Nat × Nat → Prop := Prod.Lex (· < ·) (· < ·)

theorem below_of_weight {s t : Scan} (h : stage t.reporter ≤ stage s.reporter)
    (h' : t.weight < s.weight) : Below t.measure s.measure := by
  simp only [Below, measure, Prod.lex_def]
  omega

theorem tasksWeight_set {tasks : List (String × BloomTask)} {i : Nat} {task : String × BloomTask}
    (h : tasks[i]? = some task) (after : String × BloomTask) :
    tasksWeight (tasks.set i after) + taskWeight task.2
      = tasksWeight tasks + taskWeight after.2 :=
  total_set _ h after

theorem hitsWeight_append (hits : List (Except Failure String)) (hit : Except Failure String) :
    hitsWeight (hits ++ [hit]) = hitsWeight hits + hitWeight hit := by
  simp [hitsWeight]

theorem taskWeight_tested_lt (result : Except Failure Bool) :
    taskWeight (tested result) < taskWeight .testing := by
  match result with
  | .ok true => simp [tested, taskWeight]
  | .ok false => simp [tested, taskWeight, searchWeight]
  | .error f => simp [tested, taskWeight, searchWeight]

theorem below_runTask {s t : Scan} {i : Nat} (h : s.runTask i = some t) :
    Below t.measure s.measure := by
  simp only [runTask] at h
  split at h
  · next name hi =>
    cases h
    have hset := tasksWeight_set hi (name, tested (s.source.mayContain s.address name))
    have hlt := taskWeight_tested_lt (s.source.mayContain s.address name)
    refine below_of_weight (Nat.le_refl _) ?_
    simp only [weight]
    simp only at hset
    omega
  · next name hi =>
    have hset := tasksWeight_set hi (name, .finished (.ok ()))
    simp only [taskWeight] at hset
    split at h
    · cases h
      refine below_of_weight (Nat.le_refl _) ?_
      simp only [weight]
      omega
    · split at h
      · cases h
        refine below_of_weight (Nat.le_refl _) ?_
        simp only [weight, hitsWeight_append, hitWeight]
        omega
      · cases h
  · cases h

theorem below_collect {s t : Scan} {i : Nat} (h : s.collect i = some t) :
    Below t.measure s.measure := by
  simp only [collect] at h
  split at h
  · next name hr hi =>
    cases h
    have hset := tasksWeight_set hi (name, .collected)
    simp only [taskWeight] at hset
    refine below_of_weight (Nat.le_refl _) ?_
    simp only [weight]
    omega
  · next name f hr hi =>
    cases h
    have hset := tasksWeight_set hi (name, .collected)
    simp only [taskWeight] at hset
    refine below_of_weight (Nat.zero_le _) ?_
    simp only [weight, hr, reporterWeight]
    omega
  · cases h

theorem below_report {s t : Scan} (h : s.report = some t) : Below t.measure s.measure := by
  simp only [report] at h
  split at h
  · next hr =>
    cases h
    simp only [Below, measure, Prod.lex_def, hr, list]
    left
    split <;> exact Nat.zero_lt_one
  · next hr =>
    split at h
    · cases h
      refine below_of_weight (Nat.zero_le _) ?_
      simp only [weight, hr, reporterWeight]
      omega
    · cases h
  · next f hr =>
    split at h
    · cases h
      refine below_of_weight (Nat.zero_le _) ?_
      simp only [weight, hr, reporterWeight]
      omega
    · split at h
      · cases h
        refine below_of_weight (Nat.zero_le _) ?_
        simp only [weight, hr, reporterWeight, hitsWeight_append, hitWeight]
        omega
      · cases h
  · cases h

theorem below_emit {s t : Scan} {entry : Except Failure Appearance} {next : Extractor}
    (h : s.emit entry next = some t)
    (hw : extractorWeight next + 2 ≤ extractorWeight s.extractor) :
    Below t.measure s.measure := by
  simp only [emit] at h
  split at h
  · cases h
    refine below_of_weight (Nat.le_refl _) ?_
    simp only [weight, show extractorWeight .ended = 0 from rfl]
    omega
  · split at h
    · cases h
      refine below_of_weight (Nat.le_refl _) ?_
      simp only [weight, List.length_append, List.length_cons, List.length_nil]
      omega
    · cases h

theorem below_extract {s t : Scan} (h : s.extract = some t) : Below t.measure s.measure := by
  simp only [extract] at h
  split at h
  · next he =>
    split at h
    · next name hits hh =>
      cases h
      refine below_of_weight (Nat.le_refl _) ?_
      simp only [weight, he, hh, extractorWeight, hitsWeight, hitWeight, total_cons]
      omega
    · next f hits hh =>
      cases h
      refine below_of_weight (Nat.le_refl _) ?_
      simp only [weight, he, hh, extractorWeight, hitsWeight, hitWeight, total_cons]
      omega
    · split at h
      · cases h
        refine below_of_weight (Nat.le_refl _) ?_
        simp only [weight, he, extractorWeight]
        omega
      · cases h
  · next name he =>
    split at h
    · next apps ha =>
      cases h
      have hlt := RangeSource.length_of_extract ha
      refine below_of_weight (Nat.le_refl _) ?_
      simp only [weight, he, extractorWeight, searchWeight]
      omega
    · cases h
      refine below_of_weight (Nat.le_refl _) ?_
      simp only [weight, he, extractorWeight, searchWeight]
      omega
  · next he =>
    cases h
    refine below_of_weight (Nat.le_refl _) ?_
    simp only [weight, he, extractorWeight, List.length_nil]
    omega
  · next app apps he =>
    exact below_emit h (by simp only [he, extractorWeight, List.length_cons]; omega)
  · next f he => exact below_emit h (by simp only [he, extractorWeight]; omega)
  · cases h

/-! ## Receiving -/

/-- The turn of everyone but the consumer. -/
def advance (s : Scan) : Option Scan :=
  match s.extract with
  | some t => some t
  | none =>
    match (List.range s.tasks.length).findSome? s.runTask with
    | some t => some t
    | none =>
      match (List.range s.tasks.length).findSome? s.collect with
      | some t => some t
      | none => s.report

theorem below_advance {s t : Scan} (h : s.advance = some t) : Below t.measure s.measure := by
  simp only [advance] at h
  split at h
  · next he => cases h; exact below_extract he
  · split at h
    · next hr =>
      cases h
      obtain ⟨i, _, hi⟩ := List.exists_of_findSome?_eq_some hr
      exact below_runTask hi
    · split at h
      · next hc =>
        cases h
        obtain ⟨i, _, hi⟩ := List.exists_of_findSome?_eq_some hc
        exact below_collect hi
      · exact below_report h

theorem below_receiveNow {s t : Scan} {entry : Except Failure Appearance}
    (h : s.receiveNow = some (entry, t)) : Below t.measure s.measure := by
  simp only [receiveNow] at h
  split at h
  · next ho =>
    cases h
    refine below_of_weight (Nat.le_refl _) ?_
    simp only [weight, ho, List.length_cons]
    omega
  · cases h

/-- Runs the scan until something can be received; none when the output has ended. -/
def receive (s : Scan) : Option (Except Failure Appearance) × Scan :=
  match s.receiveNow with
  | some (entry, t) => (some entry, t)
  | none =>
    match _h : s.advance with
    | some t => receive t
    | none => (none, s)
termination_by s.measure
decreasing_by exact below_advance _h

theorem below_trans {a b c : Nat × Nat} (h : Below a b) (h' : Below b c) : Below a c := by
  simp only [Below, Prod.lex_def] at *
  omega

theorem below_receive {s t : Scan} {entry : Except Failure Appearance}
    (h : s.receive = (some entry, t)) : Below t.measure s.measure := by
  fun_induction receive s with
  | case1 s e u hr => cases h; exact below_receiveNow hr
  | case2 s hr u ha ih => exact below_trans (ih h) (below_advance ha)
  | case3 s hr ha => cases h

/-- What a consumer receives that takes `limit` appearances at most, unless it meets a failure. -/
def findUpTo (s : Scan) : (limit : Nat) → Except Failure (List Appearance)
  | 0 => .ok []
  | limit + 1 =>
    match s.receive with
    | (some (.ok app), t) => (t.findUpTo limit).map (app :: ·)
    | (some (.error f), _) => .error f
    | (none, _) => .ok []

/-- What a consumer receives that receives to the end: the appearances before the end or before a
failure, in reverse, and the failure if there is one. -/
def receiveAllAfter (received : List Appearance) (s : Scan) : List Appearance × Option Failure :=
  match _h : s.receive with
  | (some (.ok app), t) => receiveAllAfter (app :: received) t
  | (some (.error f), _) => (received.reverse, some f)
  | (none, _) => (received.reverse, none)
termination_by s.measure
decreasing_by exact below_receive _h

def receiveAll (s : Scan) : List Appearance × Option Failure := receiveAllAfter [] s

/-- All appearances, or the failure that the scan met. -/
def findAll (s : Scan) : Except Failure (List Appearance) :=
  match s.receiveAll with
  | (_, some f) => .error f
  | (apps, none) => .ok apps

end Scan

end AppearanceIndex
