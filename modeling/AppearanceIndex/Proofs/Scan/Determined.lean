import AppearanceIndex.Chunk.Builder
import AppearanceIndex.Proofs.Scan.Opened
import AppearanceIndex.Proofs.Scan.Receive
import AppearanceIndex.Source.Sparse

/-!
# What the order of moves cannot change

The participants of a scan may move in any order that the queues allow. No order goes on for ever
(`Scan.no_endless_run`), and where no move is left the output has ended. Whether a consumer meets a
failure, and which appearances it finds if it meets none, is the same in every order
(`Scan.Determined`): it depends on the filters and chunks of the ranges and on nothing else.
-/

namespace AppearanceIndex

namespace Scan

variable {s t u : Scan} {received : List (Except Failure Appearance)}

/-! ## Every order ends -/

theorem below_of_step {move : ScanMove} {entry : Option (Except Failure Appearance)}
    (h : t.step move = some (entry, u)) (hm : move ≠ .abandon) : Below u.measure t.measure := by
  cases move with
  | report =>
    obtain ⟨v, hv, heq⟩ := Option.map_eq_some_iff.mp h
    cases heq
    exact below_report hv
  | task i =>
    obtain ⟨v, hv, heq⟩ := Option.map_eq_some_iff.mp h
    cases heq
    exact below_runTask hv
  | collect i =>
    obtain ⟨v, hv, heq⟩ := Option.map_eq_some_iff.mp h
    cases heq
    exact below_collect hv
  | extract =>
    obtain ⟨v, hv, heq⟩ := Option.map_eq_some_iff.mp h
    cases heq
    exact below_extract hv
  | receive =>
    obtain ⟨⟨entry, v⟩, hv, heq⟩ := Option.map_eq_some_iff.mp h
    cases heq
    exact below_receiveNow hv
  | abandon => exact absurd rfl hm

/-- A state is followed by another by a move of somebody who does not go away. -/
def Next (t u : Scan) : Prop := ∃ move entry, move ≠ .abandon ∧ t.step move = some (entry, u)

/-- Nobody can make a move but to go away. -/
def Stuck (t : Scan) : Prop := ∀ move, move ≠ .abandon → t.step move = none

theorem no_endless_run (run : Nat → Scan) : ¬ ∀ n, Next (run n) (run (n + 1)) := by
  have hwf : WellFounded Below := (inferInstance : WellFoundedRelation (Nat × Nat)).wf
  generalize hm : (run 0).measure = m
  induction m using hwf.induction generalizing run with
  | _ m ih =>
    intro hrun
    obtain ⟨move, entry, hmove, hstep⟩ := hrun 0
    exact ih _ (hm ▸ below_of_step hstep hmove) (fun n => run (n + 1)) rfl
      fun n => hrun (n + 1)

theorem exhausted_of_no_move (ha : t.abandoned = false) (h : t.Stuck) : t.Exhausted := by
  have hreceive : t.receiveNow = none := by
    have hnone := h .receive (by simp)
    exact Option.map_eq_none_iff.mp hnone
  have hadvance : t.advance = none := by
    cases hu : t.advance with
    | none => rfl
    | some u =>
      obtain ⟨move, hmove, hstep⟩ := step_of_advance hu
      rw [h move hmove] at hstep
      cases hstep
  exact exhausted_of_stuck ha hreceive hadvance

/-- A scan whose consumer stays comes to the end of its output, whoever moves. -/
theorem exists_exhausted (ha : t.abandoned = false) :
    ∃ events u, Trail Scan.step t events u ∧ u.Exhausted := by
  have hwf : WellFounded Below := (inferInstance : WellFoundedRelation (Nat × Nat)).wf
  generalize hm : t.measure = m
  induction m using hwf.induction generalizing t with
  | _ m ih =>
    by_cases hstuck : t.Stuck
    · exact ⟨[], t, .start, exhausted_of_no_move ha hstuck⟩
    · obtain ⟨move, hmove⟩ := Classical.not_forall.mp hstuck
      obtain ⟨hne, hsome⟩ := Classical.not_imp.mp hmove
      obtain ⟨⟨entry, u⟩, hstep⟩ := Option.ne_none_iff_exists'.mp hsome
      have hau : u.abandoned = false := ((transition_of_step hstep).abandoned_eq hne).trans ha
      obtain ⟨events, v, htrail, hend⟩ := ih _ (hm ▸ below_of_step hstep hne) hau rfl
      have hfirst : Trail Scan.step t [⟨t, move, entry, u⟩] u := .step .start hstep
      exact ⟨_, v, hfirst.trans htrail, hend⟩

/-! ## Success -/

theorem Finds.ok_iff {outcome : Except Failure (List Appearance)} (hs : s.Fresh)
    (hl : ∃ names, s.names? = .ok names) (h : s.Finds outcome) :
    (∃ apps, outcome = .ok apps) ↔
      (∀ name ∈ s.ranges, ∃ b, s.answer name = .ok b) ∧ s.Searchable s.positives := by
  constructor
  · rintro ⟨apps, rfl⟩
    exact ⟨(h.complete hs).answered, (h.complete hs).searchable⟩
  · rintro ⟨ha, hp⟩
    obtain ⟨apps, rfl, -⟩ := h.perm hs hl ha hp
    exact ⟨apps, rfl⟩

/-- The filter of the name denies nothing that its chunk holds of the address, and that can be
read. -/
def Faithful (s : Scan) (name : String) : Prop :=
  ∃ apps, s.found name = .ok apps ∧ (apps ≠ [] → s.answer name = .ok true)

theorem flatMap_positives_of_faithful (h : ∀ name ∈ s.ranges, s.Faithful name) :
    s.positives.flatMap s.appearances = s.ranges.flatMap s.appearances := by
  refine flatMap_positives (fun name hmem => ?_) fun name hmem hpass => ?_
  · obtain ⟨apps, hfound, -⟩ := h name hmem
    unfold appearances
    rw [hfound]
    rfl
  · obtain ⟨apps, hfound, htrue⟩ := h name hmem
    refine Classical.byContradiction fun hne => ?_
    unfold appearances at hne
    rw [hfound] at hne
    unfold passes at hpass
    rw [htrue hne] at hpass
    cases hpass

/-! ## The outcome -/

/-- What does not depend on the order of the moves of a scan. -/
structure Determined (s : Scan) : Prop where
  /-- Moves are made only finitely often. -/
  stops : ¬ ∃ run : Nat → Scan, run 0 = s ∧ ∀ n, Next (run n) (run (n + 1))
  /-- When no move is left, a consumer that stayed has received everything. -/
  ends : ∀ received t, s.Course received t → t.abandoned = false → t.Stuck → t.Exhausted
  /-- There is an outcome. -/
  collected : s.Finds s.findAll
  succeeds_iff : ∀ outcome, s.Finds outcome → ((∃ apps, outcome = .ok apps) ↔
    (∀ name ∈ s.ranges, ∃ b, s.answer name = .ok b) ∧ s.Searchable s.positives)
  perm : ∀ apps, s.Finds (.ok apps) → apps.Perm (s.positives.flatMap s.appearances)
  perm_all : (∀ name ∈ s.ranges, s.Faithful name) →
    ∀ apps, s.Finds (.ok apps) → apps.Perm (s.ranges.flatMap s.appearances)
  /-- Nothing is opened but filters and chunks of ranges. -/
  confined : ∀ events t, Trail Scan.step s events t →
    ∀ name, name ∈ testedNames events ∨ name ∈ searchedNames events → name ∈ s.ranges
  /-- What the source holds under other names does not matter. -/
  unaffected : ∀ other, RangeSource.Agree s.ranges s.source other →
    ∀ outcome, s.Finds outcome ↔ (s.withSource other).Finds outcome

theorem Fresh.determined (hs : s.Fresh) (hl : ∃ names, s.names? = .ok names) : s.Determined where
  stops := by
    rintro ⟨run, -, hrun⟩
    exact no_endless_run run hrun
  ends := fun _ _ _ ha hstuck => exhausted_of_no_move ha hstuck
  collected := finds_findAll hs.abandoned
  succeeds_iff := fun _ hfinds => hfinds.ok_iff hs hl
  perm := fun _ hfinds => (hfinds.complete hs).perm
  perm_all := by
    intro hfaithful apps hfinds
    rw [← flatMap_positives_of_faithful hfaithful]
    exact (hfinds.complete hs).perm
  confined := fun _ _ htrail _ hmem => mem_ranges_of_opened hs htrail hmem
  unaffected := fun _ ha outcome => finds_withSource_iff hs ha outcome

/-- When the filters of a source can be listed and the queues of a scan can be made, its outcome is
the same in every order of the moves. The ranges are the listed names that stand for one; a scan
succeeds if all their filters answer and the chunks of those that pass can be searched, and then
finds what these chunks hold. -/
theorem determined_of_listed {source : RangeSource} {names : List String}
    (hl : source.names = .ok names) {settings : ScanSettings} (hp : settings.Possible)
    (chain : String) (address : Address) :
    ∃ scan, start? source chain address settings = some scan ∧
      scan.ranges = RangeSource.rangeNames names ∧
      (∀ name, scan.answer name = source.mayContain address name) ∧
      (∀ name, scan.found name = source.extract address name) ∧ scan.Determined := by
  obtain ⟨scan, hstart, hfresh, rfl, rfl⟩ := exists_start hp source chain address
  have hnames : scan.names? = .ok (RangeSource.rangeNames names) := by
    unfold names?
    rw [hl]
    rfl
  have hranges : scan.ranges = RangeSource.rangeNames names := by
    unfold ranges
    rw [hnames]
    rfl
  exact ⟨scan, hstart, hranges, fun _ => rfl, fun _ => rfl, hfresh.determined ⟨_, hnames⟩⟩

/-- A filter of one block that holds the address 1. -/
def sampleBloom : SeekableSource :=
  let header := BloomHeader.toBytes ⟨BloomHeader.bloomMagic, Vector.replicate 32 0⟩ ++
    Bytes.littleEndian 4 1
  SparseSource.seekable ⟨header.toArray, [(131113, #[3])], true, 131114, []⟩

/-- A chunk in which the address 1 appears twice. -/
def sampleChunk : SeekableSource :=
  .ofBytes (ChunkBuilder.ofList [⟨.ofNat 1, ⟨4, 2⟩⟩, ⟨.ofNat 2, ⟨3, 0⟩⟩, ⟨.ofNat 1, ⟨7, 1⟩⟩]).build

/-- Two ranges, the filter of the second being given, and a name that stands for none. -/
def sampleSource (second : Except Failure SeekableSource) : RangeSource where
  names := .ok ["000000000-000000009", "000000010-000000019", "readme"]
  openBloom name := if name = "000000010-000000019" then second else .ok sampleBloom
  openChunk _ := .ok sampleChunk

def narrowQueues : ScanSettings := ⟨⟨1, Nat.one_pos⟩, ⟨1, Nat.one_pos⟩⟩

theorem determined_two_ranges :
    ∃ scan, start? (sampleSource (.ok sampleBloom)) "mainnet" (.ofNat 1) narrowQueues = some scan ∧
      scan.Determined ∧ ∃ apps, scan.findAll = .ok apps ∧
        apps.Perm [⟨4, 2⟩, ⟨7, 1⟩, ⟨4, 2⟩, ⟨7, 1⟩] := by
  obtain ⟨scan, hstart, hranges, hanswer, hfound, hdetermined⟩ :=
    determined_of_listed (show (sampleSource (.ok sampleBloom)).names = .ok _ from rfl)
      (show narrowQueues.Possible from ⟨by decide, by decide⟩) "mainnet" (.ofNat 1)
  have hnames : scan.ranges = ["000000000-000000009", "000000010-000000019"] := by
    rw [hranges]
    decide +kernel
  have hheld : ∀ name ∈ scan.ranges, scan.answer name = .ok true ∧
      scan.found name = .ok [⟨4, 2⟩, ⟨7, 1⟩] := by
    rw [hnames]
    intro name hmem
    rw [hanswer, hfound]
    rcases List.mem_cons.mp hmem with rfl | hmem
    · exact ⟨eq_ok_of_toOption (by decide +kernel), eq_ok_of_toOption (by decide +kernel)⟩
    · rw [List.mem_singleton.mp hmem]
      exact ⟨eq_ok_of_toOption (by decide +kernel), eq_ok_of_toOption (by decide +kernel)⟩
  have hsearchable : scan.Searchable scan.positives := fun name hmem =>
    ⟨_, (hheld name (List.mem_filter.mp hmem).1).2⟩
  obtain ⟨apps, happs⟩ := (hdetermined.succeeds_iff _ hdetermined.collected).mpr
    ⟨fun name hmem => ⟨true, (hheld name hmem).1⟩, hsearchable⟩
  have hall := hdetermined.perm_all (fun name hmem => ⟨_, (hheld name hmem).2,
    fun _ => (hheld name hmem).1⟩) apps (happs ▸ hdetermined.collected)
  have happearances : ∀ name ∈ scan.ranges, scan.appearances name = [⟨4, 2⟩, ⟨7, 1⟩] := by
    intro name hmem
    unfold appearances
    rw [(hheld name hmem).2]
    rfl
  have hconcat : scan.ranges.flatMap scan.appearances =
      [⟨4, 2⟩, ⟨7, 1⟩, ⟨4, 2⟩, ⟨7, 1⟩] := by
    rw [hnames] at happearances ⊢
    simp [happearances]
  exact ⟨scan, hstart, hdetermined, apps, happs, hconcat ▸ hall⟩

end Scan

end AppearanceIndex
