import AppearanceIndex.Positive
import AppearanceIndex.Scan.Source

/-!
# Scans

A scan looks for every appearance of an address in a chain. A reporter lists the bloom files and
starts one task for each name that stands for a range. A task tests its filter and sends the name of
a possible match to the hits. An extractor searches the chunk of each hit and sends what it finds to
the output. The reporter collects the tasks as they finish; when one has failed, or the listing has,
it sends that failure to the hits, and the extractor passes it on and ends. Both queues are bounded.

`Scan.step` performs one move of one participant. Any sequence of moves is a possible course of
events; `Scan/Receive.lean` picks one.
-/

namespace AppearanceIndex

structure ScanSettings where
  hitCapacity : Positive
  outputCapacity : Positive

/-- What a bloom task is about to do, or has done. -/
inductive BloomTask where
  /-- To test the filter. -/
  | testing
  /-- To send its name to the hits. -/
  | hitting
  | finished (result : Except Failure Unit)
  /-- The reporter knows its result. -/
  | collected

inductive Reporter where
  | listing
  /-- To collect finished tasks. -/
  | collecting
  /-- To send a failure to the hits. -/
  | failing (failure : Failure)
  | ended

inductive Extractor where
  /-- To take a hit. -/
  | receiving
  /-- To search a chunk. -/
  | searching (name : String)
  /-- To send appearances to the output. -/
  | sending (appearances : List Appearance)
  /-- To send a failure to the output. -/
  | failing (failure : Failure)
  | ended

structure Scan where
  source : RangeSource
  chain : String
  address : Address
  settings : ScanSettings
  reporter : Reporter
  tasks : List (String × BloomTask)
  /-- Names of possible matches and failures, oldest first. -/
  hits : List (Except Failure String)
  extractor : Extractor
  /-- What was found and not received yet, oldest first. -/
  output : List (Except Failure Appearance)
  /-- The consumer is gone. -/
  abandoned : Bool

inductive ScanMove where
  /-- The reporter lists the bloom files, sends a failure, or finds that all tasks are collected. -/
  | report
  /-- A bloom task makes a step. -/
  | task (i : Nat)
  /-- The reporter collects a finished task. -/
  | collect (i : Nat)
  | extract
  /-- The consumer receives the oldest entry of the output. -/
  | receive
  /-- The consumer goes away. -/
  | abandon
deriving DecidableEq

namespace Scan

def maxCapacity : Nat := UInt64.size / 8 - 1

/-- A scan that is about to begin; none if a queue cannot be as large as was asked for. -/
def start? (source : RangeSource) (chain : String) (address : Address) (settings : ScanSettings) :
    Option Scan :=
  if maxCapacity < settings.hitCapacity.val ∨ maxCapacity < settings.outputCapacity.val then none
  else
    some
      { source, chain, address, settings
        reporter := .listing
        tasks := []
        hits := []
        extractor := .receiving
        output := []
        abandoned := false }

def extractorEnded (s : Scan) : Bool := s.extractor matches .ended

def hasHitRoom (s : Scan) : Bool := s.hits.length < s.settings.hitCapacity.val

def hasOutputRoom (s : Scan) : Bool := s.output.length < s.settings.outputCapacity.val

def isFinished : BloomTask → Bool
  | .finished _ | .collected => true
  | _ => false

def hitsClosed (s : Scan) : Bool :=
  (s.reporter matches .ended) && s.tasks.all fun task => isFinished task.2

/-- Lists the bloom files and starts the tasks. -/
def list (s : Scan) : Scan :=
  match (Activity.listBlooms s.chain).around s.source.names with
  | .ok names =>
    { s with
      reporter := .collecting
      tasks := (RangeSource.rangeNames names).map fun name => (name, .testing) }
  | .error f => { s with reporter := .failing f }

/-- The reporter's move, other than collecting a task. -/
def report (s : Scan) : Option Scan :=
  match s.reporter with
  | .listing => some s.list
  | .collecting =>
    if s.tasks.all fun task => task.2 matches .collected then some { s with reporter := .ended }
    else none
  | .failing f =>
    if s.extractorEnded then some { s with reporter := .ended }
    else if s.hasHitRoom then
      some { s with hits := s.hits ++ [.error f], reporter := .ended }
    else none
  | .ended => none

def tested : Except Failure Bool → BloomTask
  | .ok true => .hitting
  | .ok false => .finished (.ok ())
  | .error f => .finished (.error f)

/-- A task's move. A hit that nobody takes is dropped. -/
def runTask (s : Scan) (i : Nat) : Option Scan :=
  match s.tasks[i]? with
  | some (name, .testing) =>
    some { s with tasks := s.tasks.set i (name, tested (s.source.mayContain s.address name)) }
  | some (name, .hitting) =>
    if s.extractorEnded then some { s with tasks := s.tasks.set i (name, .finished (.ok ())) }
    else if s.hasHitRoom then
      some
        { s with
          tasks := s.tasks.set i (name, .finished (.ok ()))
          hits := s.hits ++ [.ok name] }
    else none
  | _ => none

/-- The reporter collects a finished task; a failure makes it stop collecting. -/
def collect (s : Scan) (i : Nat) : Option Scan :=
  match s.reporter, s.tasks[i]? with
  | .collecting, some (name, .finished (.ok ())) =>
    some { s with tasks := s.tasks.set i (name, .collected) }
  | .collecting, some (name, .finished (.error f)) =>
    some { s with tasks := s.tasks.set i (name, .collected), reporter := .failing f }
  | _, _ => none

/-- Sends an entry to the output and goes on, or ends because nobody receives it. -/
def emit (s : Scan) (entry : Except Failure Appearance) (next : Extractor) : Option Scan :=
  if s.abandoned then some { s with extractor := .ended }
  else if s.hasOutputRoom then some { s with output := s.output ++ [entry], extractor := next }
  else none

def extract (s : Scan) : Option Scan :=
  match s.extractor with
  | .receiving =>
    match s.hits with
    | .ok name :: hits => some { s with hits, extractor := .searching name }
    | .error f :: hits => some { s with hits, extractor := .failing f }
    | [] => if s.hitsClosed then some { s with extractor := .ended } else none
  | .searching name =>
    match s.source.extract s.address name with
    | .ok apps => some { s with extractor := .sending apps }
    | .error f => some { s with extractor := .failing f }
  | .sending [] => some { s with extractor := .receiving }
  | .sending (app :: apps) => s.emit (.ok app) (.sending apps)
  | .failing f => s.emit (.error f) .ended
  | .ended => none

def receiveNow (s : Scan) : Option (Except Failure Appearance × Scan) :=
  match s.abandoned, s.output with
  | false, entry :: output => some (entry, { s with output })
  | _, _ => none

/-- One move, with what the consumer receives in it; none if the move is not possible now. -/
def step (s : Scan) : ScanMove → Option (Option (Except Failure Appearance) × Scan)
  | .report => s.report.map fun s => (none, s)
  | .task i => (s.runTask i).map fun s => (none, s)
  | .collect i => (s.collect i).map fun s => (none, s)
  | .extract => s.extract.map fun s => (none, s)
  | .receive => s.receiveNow.map fun (entry, s) => (some entry, s)
  | .abandon => some (none, { s with abandoned := true, output := [] })

end Scan

end AppearanceIndex
