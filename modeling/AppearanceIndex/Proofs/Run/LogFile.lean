import AppearanceIndex.Proofs.Json.Row
import AppearanceIndex.Proofs.Run.Kept
import AppearanceIndex.Proofs.Run.RowFile

/-!
# The file of status logs

A `LogSession` is whatever is done with logs on one file: some are opened, by any path that leads
there, some are copies of others, and lines are recorded through any of them. After any moves
the file is what it was and then the lines in their order (`LogSession.Keeps`, one lemma for each
move). A line reads back as its status and its name: no word for a status has a tab, so that
the first one ends it, whatever the name is.
-/

namespace AppearanceIndex

/-- The logs that were opened or copied so far, oldest first. -/
structure LogSession where
  logs : List StatusLog
  files : FileStore

/-- What is done with the logs of a session. A log is known by its number. -/
inductive LogMove where
  | openAt (path : Path)
  | copy (number : Nat)
  | record (number : Nat) (status : ChunkStatus) (name : String)

/-- A move, if there is the log and nothing fails. A line that is recorded is given out. -/
def LogSession.step (s : LogSession) : LogMove → Option (Option StatusLine × LogSession)
  | .openAt path =>
    match StatusLog.openAt s.files path with
    | .ok (log, files) => some (none, ⟨s.logs ++ [log], files⟩)
    | .error _ => none
  | .copy number => s.logs[number]?.map fun log => (none, { s with logs := s.logs ++ [log] })
  | .record number status name =>
    match s.logs[number]? with
    | none => none
    | some log =>
      match log.record s.files status name with
      | (.ok (), files) => some (some ⟨status, name⟩, { s with files })
      | (.error _, _) => none

/-! ## Lines -/

namespace StatusLine

def text (line : StatusLine) : List Char := line.status.text.toList ++ '\t' :: line.name.toList

/-- The line that characters spell: the first tab is behind the word for the status. -/
def ofText? (cs : List Char) : Option StatusLine :=
  match cs.dropWhile (· ≠ '\t') with
  | [] => none
  | _ :: name =>
    ([.done, .error, .appearanceError].find? fun status : ChunkStatus =>
      status.text.toList = cs.takeWhile (· ≠ '\t')).map fun status => ⟨status, String.ofList name⟩

theorem ofText?_text (line : StatusLine) : ofText? line.text = some line := by
  have htab : '\t' ∉ line.status.text.toList := by cases line.status <;> decide
  have hword : ∀ c ∈ line.status.text.toList, decide (c ≠ '\t') = true :=
    fun c hc => decide_eq_true fun heq => htab (heq ▸ hc)
  have hfirst : line.text.takeWhile (· ≠ '\t') = line.status.text.toList := by
    unfold text
    rw [List.takeWhile_append_of_pos hword]
    simp
  have hrest : line.text.dropWhile (· ≠ '\t') = '\t' :: line.name.toList := by
    unfold text
    rw [List.dropWhile_append_of_pos hword]
    simp
  have hstatus : ([.done, .error, .appearanceError].find? fun status : ChunkStatus =>
      status.text.toList = line.status.text.toList) = some line.status := by
    cases line.status <;> decide
  unfold ofText?
  simp only [hrest, hfirst, hstatus, Option.map_some, String.ofList_toList]

theorem newline_not_mem_text {line : StatusLine} (h : '\n' ∉ line.name.toList) :
    '\n' ∉ line.text := by
  have hword : '\n' ∉ line.status.text.toList := by cases line.status <;> decide
  simp [text, hword, h]

theorem logText_eq (written : List StatusLine) :
    IngestRun.logText written = Utf8.encode ((written.map text).flatMap (· ++ ['\n'])) := by
  induction written with
  | nil => rfl
  | cons line written ih =>
    rw [List.map_cons, List.flatMap_cons, Utf8.encode_append, ← ih]
    rfl

/-- Lines that were written read back, if no name has a line feed. -/
theorem split_logText {written : List StatusLine} (h : ∀ line ∈ written, '\n' ∉ line.name.toList) :
    ∃ content pieces, Utf8.decode? (IngestRun.logText written) = some content ∧
      content.toList.splitOn '\n' = pieces ++ [[]] ∧ pieces.map ofText? = written.map some := by
  refine ⟨_, written.map text, by rw [logText_eq, Utf8.decode?_encode], ?_, ?_⟩
  · rw [String.toList_ofList]
    refine splitOn_lines fun piece hpiece => ?_
    obtain ⟨line, hline, rfl⟩ := List.mem_map.mp hpiece
    exact newline_not_mem_text (h line hline)
  · rw [List.map_map]
    exact List.map_congr_left fun line _ => ofText?_text line

end StatusLine

/-! ## Opening -/

namespace FileStore

variable {files opened : FileStore} {path other : Path} {place : Place} {content : Bytes}

theorem openWrite_eq_ok (h : files.openWrite path = .ok (place, opened)) :
    files.locate path = .ok place ∧ meansDirectory path = false ∧
      opened.workingPlace = files.workingPlace := by
  unfold openWrite at h
  cases hlocate : files.locate path with
  | error e =>
    rw [hlocate] at h
    cases h
  | ok at_ =>
    simp only [hlocate, bind, Except.bind] at h
    split at h
    · cases h
    · next hmeans =>
      have hmeans : meansDirectory path = false := Bool.not_eq_true _ ▸ hmeans
      split at h
      · cases h
        exact ⟨rfl, hmeans, workingPlace_put _ _ _⟩
      · cases h
      · cases h
        exact ⟨rfl, hmeans, rfl⟩

/-- Two paths of files that lead to one place are opened alike. -/
theorem Opens.openWrite_eq (h : files.Opens path content)
    (ho : files.openWrite other = .ok (place, opened))
    (ht : files.target other = files.target path) :
    files.openWrite path = .ok (place, opened) := by
  obtain ⟨hlocate, hmeans, -⟩ := openWrite_eq_ok ho
  obtain ⟨at_, hat, -⟩ := h.located
  have hplace : at_ = place := by
    rw [← target_of_locate hat, ← target_of_locate hlocate, ht]
  subst hplace
  unfold FileStore.openWrite at ho ⊢
  rw [hat, h.notDirectory]
  rw [hlocate, hmeans] at ho
  exact ho

end FileStore

/-! ## What a session keeps -/

namespace LogSession

variable {files : FileStore} {path : Path} {content : Bytes} {s t : LogSession}
  {events : List (Event LogSession LogMove StatusLine)} {move : LogMove}
  {output : Option StatusLine}

/-- The path leads to the file of all logs, which has a content. -/
structure Keeps (files : FileStore) (path : Path) (content : Bytes) (s : LogSession) : Prop where
  workingPlace : s.files.workingPlace = files.workingPlace
  opens : s.files.Opens path content
  held : ∀ log ∈ s.logs, s.files.locate path = .ok log.place ∧
    s.files.node? log.place = some (.file content)

theorem Keeps.openAt (h : Keeps files path content s) {other : Path}
    (ho : files.target other = files.target path)
    (hs : s.step (.openAt other) = some (output, t)) :
    output = none ∧ Keeps files path content t := by
  have htarget : ∀ p, s.files.target p = files.target p := fun p => by
    unfold FileStore.target
    rw [h.workingPlace]
  simp only [step, StatusLog.openAt] at hs
  cases hother : s.files.openWrite other with
  | error e =>
    rw [hother] at hs
    cases hs
  | ok result =>
    obtain ⟨place, opened⟩ := result
    rw [hother] at hs
    cases hs
    have hpath : s.files.openWrite path = .ok (place, opened) :=
      h.opens.openWrite_eq hother (by rw [htarget, htarget, ho])
    obtain ⟨place', opened', hpath', hlocate, hnode⟩ := h.opens.openWrite
    rw [hpath] at hpath'
    cases hpath'
    obtain ⟨hbefore, -, hworking⟩ := FileStore.openWrite_eq_ok hpath
    refine ⟨rfl, hworking.trans h.workingPlace, ⟨h.opens.notDirectory, place, hlocate, .inl hnode⟩,
      fun log hlog => ?_⟩
    rcases List.mem_append.mp hlog with hold | hnew
    · -- an older log is on the same file
      obtain ⟨hat, -⟩ := h.held log hold
      rw [hbefore] at hat
      cases hat
      exact ⟨hlocate, hnode⟩
    · rw [List.mem_singleton.mp hnew]
      exact ⟨hlocate, hnode⟩

theorem Keeps.copy (h : Keeps files path content s) {number : Nat}
    (hs : s.step (.copy number) = some (output, t)) :
    output = none ∧ Keeps files path content t := by
  obtain ⟨log, hlog, heq⟩ := Option.map_eq_some_iff.mp hs
  cases heq
  refine ⟨rfl, h.workingPlace, h.opens, fun other hother => ?_⟩
  rcases List.mem_append.mp hother with hold | hnew
  · exact h.held other hold
  · rw [List.mem_singleton.mp hnew]
    exact h.held log (List.mem_of_getElem? hlog)

theorem Keeps.record (h : Keeps files path content s) {number : Nat} {status : ChunkStatus}
    {name : String} (hs : s.step (.record number status name) = some (output, t)) :
    output = some ⟨status, name⟩ ∧
      Keeps files path (content ++ IngestRun.logText [⟨status, name⟩]) t := by
  simp only [step] at hs
  cases hlog : s.logs[number]? with
  | none =>
    rw [hlog] at hs
    cases hs
  | some log =>
    obtain ⟨hat, hfile⟩ := h.held log (List.mem_of_getElem? hlog)
    obtain ⟨kept, hadds, -, hall⟩ := log.adds_record s.files status name
    simp only [hlog] at hs
    split at hs
    · next after hrecord =>
      cases hs
      rw [hrecord] at hadds hall
      have hkept : kept = IngestRun.logText [⟨status, name⟩] := by
        rw [hall.mp rfl, IngestRun.logText, List.flatMap_singleton]
      subst hkept
      have hagrees : FileStore.Agrees (· = log.place) s.files after := hadds.agrees rfl
      have hlocate := (hagrees.locate_eq path).trans hat
      have hnode := hadds.plain hfile
      refine ⟨rfl, hadds.workingPlace.trans h.workingPlace,
        ⟨h.opens.notDirectory, log.place, hlocate, .inl hnode⟩, fun other hother => ?_⟩
      -- all logs are on the file to which the line was added
      obtain ⟨hsame, -⟩ := h.held other hother
      rw [hat, Except.ok.injEq] at hsame
      rw [← hsame]
      exact ⟨hlocate, hnode⟩
    · cases hs

theorem Keeps.step (h : Keeps files path content s) (hs : s.step move = some (output, t))
    (ho : ∀ other, move = .openAt other → files.target other = files.target path) :
    Keeps files path (content ++ IngestRun.logText output.toList) t := by
  cases move with
  | openAt other =>
    obtain ⟨rfl, hkeeps⟩ := h.openAt (ho other rfl) hs
    simpa [IngestRun.logText] using hkeeps
  | copy number =>
    obtain ⟨rfl, hkeeps⟩ := h.copy hs
    simpa [IngestRun.logText] using hkeeps
  | record number status name =>
    obtain ⟨rfl, hkeeps⟩ := h.record hs
    exact hkeeps

theorem keeps_of_trail (hf : files.Opens path content)
    (h : Trail LogSession.step ⟨[], files⟩ events s)
    (ho : ∀ e ∈ events, ∀ other, e.move = .openAt other →
      files.target other = files.target path) :
    Keeps files path (content ++ IngestRun.logText (Trail.outputs events)) s := by
  induction h with
  | start =>
    refine ⟨rfl, ?_, fun log hlog => by cases hlog⟩
    simpa [Trail.outputs, IngestRun.logText] using hf
  | step htrail hs ih =>
    rw [List.forall_mem_append] at ho
    have hnext := (ih ho.1).step hs (ho.2 _ (List.mem_singleton_self _))
    rw [Trail.outputs_append, IngestRun.logText_append, Trail.outputs_single, ← List.append_assoc]
    exact hnext

/-- Whatever is done with logs on a file: the file is what it was and then a line for each record,
in their order. If it was empty and no name has a line feed, the lines and the first tab in each
tell the records again. -/
theorem file_of_trail (hf : files.Opens path content)
    (h : Trail LogSession.step ⟨[], files⟩ events s)
    (ho : ∀ e ∈ events, ∀ other, e.move = .openAt other →
      files.target other = files.target path) :
    s.files.Opens path (content ++ (Trail.outputs events).flatMap fun line =>
        Utf8.encode (StatusLog.line line.status line.name)) ∧
      (s.logs ≠ [] → s.files.contentOf path = .ok (content ++
        (Trail.outputs events).flatMap fun line =>
          Utf8.encode (StatusLog.line line.status line.name))) ∧
      (content = [] → (∀ line ∈ Trail.outputs events, '\n' ∉ line.name.toList) → s.logs ≠ [] →
        ∃ bs text pieces, s.files.contentOf path = .ok bs ∧ Utf8.decode? bs = some text ∧
          text.toList.splitOn '\n' = pieces ++ [[]] ∧
          pieces.map StatusLine.ofText? = (Trail.outputs events).map some) := by
  have hkeeps := keeps_of_trail hf h ho
  have hcontent : s.logs ≠ [] → s.files.contentOf path =
      .ok (content ++ IngestRun.logText (Trail.outputs events)) := by
    intro hlogs
    obtain ⟨log, hlog⟩ := List.exists_mem_of_ne_nil _ hlogs
    obtain ⟨hlocate, hnode⟩ := hkeeps.held log hlog
    exact FileStore.contentOf_of_openRead
      (FileStore.openRead_of_file hlocate hnode hf.notDirectory)
  refine ⟨hkeeps.opens, hcontent, ?_⟩
  rintro rfl hnames hlogs
  obtain ⟨text, pieces, htext, hpieces, hlines⟩ := StatusLine.split_logText hnames
  exact ⟨_, text, pieces, by simpa using hcontent hlogs, htext, hpieces, hlines⟩

/-- Two logs on one file that is not there at first, and a copy. A name has a tab. -/
def sampleLogMoves : List LogMove :=
  [.openAt ⟨"log"⟩, .record 0 .done "0-9", .copy 0, .openAt ⟨"./log"⟩,
    .record 2 .appearanceError "10\t19", .record 1 .error "20-29", .record 0 .done "0-9"]

theorem file_of_two_logs_and_copy :
    let files : FileStore := ⟨[], [], by simp⟩
    let followed := Trail.follow LogSession.step ⟨[], files⟩ sampleLogMoves
    let lines : List StatusLine := [⟨.done, "0-9"⟩, ⟨.appearanceError, "10\t19"⟩,
      ⟨.error, "20-29"⟩, ⟨.done, "0-9"⟩]
    files.Opens ⟨"log"⟩ [] ∧ Trail.outputs followed.1 = lines ∧
      followed.2.files.contentOf ⟨"log"⟩ = .ok (Utf8.encode
        "done\t0-9\nappearance-error\t10\t19\nerror\t20-29\ndone\t0-9\n".toList) ∧
      ∃ bs text pieces, followed.2.files.contentOf ⟨"log"⟩ = .ok bs ∧
        Utf8.decode? bs = some text ∧ text.toList.splitOn '\n' = pieces ++ [[]] ∧
        pieces.map StatusLine.ofText? = lines.map some := by
  intro files followed lines
  have hopens : files.Opens ⟨"log"⟩ [] := ⟨by decide +kernel, ["log"], by rfl, .inr ⟨rfl, rfl⟩⟩
  have hmoves : followed.1.map (·.move) = sampleLogMoves := by rfl
  have hlines : Trail.outputs followed.1 = lines := by rfl
  have hpaths : ∀ e ∈ followed.1, ∀ other, e.move = .openAt other →
      files.target other = files.target ⟨"log"⟩ := by
    intro e he other hmove
    have hmem : LogMove.openAt other ∈ sampleLogMoves := by
      rw [← hmoves, ← hmove]
      exact List.mem_map_of_mem he
    simp only [sampleLogMoves, List.mem_cons, LogMove.openAt.injEq, reduceCtorEq, false_or,
      List.not_mem_nil, or_false] at hmem
    rcases hmem with rfl | rfl <;> rfl
  obtain ⟨-, hcontent, hread⟩ := file_of_trail hopens (Trail.trail_follow _ _ _) hpaths
  have hlogs : followed.2.logs ≠ [] := by
    intro hnil
    exact absurd (congrArg List.length hnil) (by decide +kernel)
  have hnames : ∀ line ∈ Trail.outputs followed.1, '\n' ∉ line.name.toList := by
    rw [hlines]
    decide +kernel
  refine ⟨hopens, hlines, ?_, hlines ▸ hread rfl hnames hlogs⟩
  rw [hcontent hlogs, hlines]
  rfl

end LogSession

end AppearanceIndex
