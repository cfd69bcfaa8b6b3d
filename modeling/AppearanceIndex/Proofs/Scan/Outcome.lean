import AppearanceIndex.Proofs.Scan.Account

/-!
# What a scan finds

A consumer that reads a scan to its end finds what the source holds, whatever the order of the
moves (`Scan.Ends.concludes`). In particular, when every name is listed, tested and searched
without failure, it finds the appearances of all names that pass (`Scan.Finds.perm`).
-/

namespace AppearanceIndex

theorem eq_ok_of_toOption {ε α : Type} {result : Except ε α} {a : α}
    (h : result.toOption = some a) : result = .ok a := by
  cases result with
  | ok b => exact congrArg Except.ok (Option.some.inj h)
  | error e => cases h

theorem flatMap_filter_eq {α β : Type} {p : α → Bool} {f g : α → List β} {as : List α}
    (hp : ∀ a ∈ as, p a = true → f a = g a) (hn : ∀ a ∈ as, p a = false → g a = []) :
    (as.filter p).flatMap f = as.flatMap g := by
  induction as with
  | nil => rfl
  | cons a as ih =>
    have hrest := ih (fun b hb => hp b (List.mem_cons_of_mem a hb))
      (fun b hb => hn b (List.mem_cons_of_mem a hb))
    rw [List.filter_cons, List.flatMap_cons]
    cases ha : p a with
    | true => rw [if_pos rfl, List.flatMap_cons, hrest, hp a List.mem_cons_self ha]
    | false => rw [if_neg Bool.false_ne_true, hrest, hn a List.mem_cons_self ha, List.nil_append]

namespace Scan

variable {s t u : Scan}

structure Fresh (s : Scan) : Prop where
  reporter : s.reporter = .listing
  tasks : s.tasks = []
  hits : s.hits = []
  extractor : s.extractor = .receiving
  output : s.output = []
  abandoned : s.abandoned = false

theorem fresh_of_start {source : RangeSource} {chain : String} {address : Address}
    {settings : ScanSettings} (h : start? source chain address settings = some s) :
    s.Fresh ∧ s.source = source ∧ s.chain = chain ∧ s.address = address := by
  unfold start? at h
  split at h
  · cases h
  · cases h
    exact ⟨⟨rfl, rfl, rfl, rfl, rfl, rfl⟩, rfl, rfl, rfl⟩

theorem Fresh.stands (h : s.Fresh) : s.Stands [] ([] ++ s.output) s where
  source := rfl
  address := rfl
  chain := rfl
  names := fun hr => absurd h.reporter hr
  tasks := by rw [h.tasks]; simp
  blamed := by simp
  reporter := by rw [h.reporter, h.tasks]; exact .listing rfl rfl
  sent := fun _ => by rw [h.tasks]; exact .nil
  extractor := by
    have hnothing : s.Searchable [] := by simp [Searchable]
    rw [h.extractor, h.hits, h.output]
    exact .receiving hnothing rfl

variable {received : List (Except Failure Appearance)}

/-- A consumer that is there was there before. -/
theorem Transition.stayed {move : ScanMove} {entry : Option (Except Failure Appearance)}
    (h : t.Transition move entry u) (ha : u.abandoned = false) : t.abandoned = false := by
  cases h with
  | list =>
    rw [← ha]
    unfold Scan.list
    split <;> rfl
  | abandon => cases ha
  | _ => exact ha

theorem Course.stands (hs : s.Fresh) (h : s.Course received t) (ha : t.abandoned = false) :
    ∃ queued, s.Stands queued (received ++ t.output) t := by
  induction h with
  | start => exact ⟨[], hs.stands⟩
  | @step received t u move entry _ hstep ih =>
    have ht := transition_of_step hstep
    obtain ⟨queued, hstands⟩ := ih (ht.stayed ha)
    exact hstands.step ht ha

/-- Before the extractor has ended, it has sent no failure. -/
theorem ExtractorFits.ok_or_concludes {queued hits : List (Except Failure String)}
    {emitted : List (Except Failure Appearance)} {extractor : Extractor}
    (h : s.ExtractorFits queued hits emitted extractor) :
    (∃ apps : List Appearance, emitted = apps.map .ok) ∨ s.Concludes emitted := by
  cases h with
  | receiving | searching | unsearchable | told => exact .inl ⟨_, rfl⟩
  | @sending names _ apps =>
    exact .inl ⟨names.flatMap s.appearances ++ apps, by rw [List.map_append]; rfl⟩
  | ended hc => exact .inr hc

theorem extractor_eq_ended (he : t.extractorEnded = true) : t.extractor = .ended := by
  unfold extractorEnded at he
  split at he
  · assumption
  · cases he

theorem error_not_mem_map_ok (apps : List Appearance) (f : Failure) :
    Except.error f ∉ apps.map Except.ok := by simp

theorem Ends.concludes {apps : List Appearance} {failure : Option Failure} (hs : s.Fresh)
    (h : s.Ends apps failure) :
    match failure with
    | none => s.Concludes (apps.map .ok)
    | some f => ∃ more : List (Except Failure Appearance),
        s.Concludes (apps.map .ok ++ .error f :: more) := by
  cases failure with
  | none =>
    obtain ⟨t, hc, ha, ho, he⟩ := h
    obtain ⟨queued, hstands⟩ := hc.stands hs ha
    have hextractor := hstands.extractor
    rw [ho, List.append_nil, extractor_eq_ended he] at hextractor
    show s.Concludes (apps.map .ok)
    generalize apps.map Except.ok = emitted at hextractor
    cases hextractor with
    | ended hc => exact hc
  | some f =>
    obtain ⟨t, hc, ha⟩ := h
    obtain ⟨queued, hstands⟩ := hc.stands hs ha
    rcases hstands.extractor.ok_or_concludes with ⟨all, hok⟩ | hc
    · have hmem : Except.error f ∈ all.map Except.ok := by
        rw [← hok]
        simp
      exact absurd hmem (error_not_mem_map_ok all f)
    · refine ⟨t.output, ?_⟩
      simpa using hc

theorem Finds.ends {outcome : Except Failure (List Appearance)} (h : s.Finds outcome) :
    match outcome with
    | .ok apps => s.Ends apps none
    | .error f => ∃ apps, s.Ends apps (some f) := by
  cases outcome with
  | ok apps => exact h
  | error f => exact h

theorem Ends.finds {apps : List Appearance} {failure : Option Failure} (h : s.Ends apps failure) :
    match failure with
    | none => s.Finds (.ok apps)
    | some f => s.Finds (.error f) := by
  cases failure with
  | none => exact h
  | some f => exact ⟨apps, h⟩

theorem Searchable.found_eq {names : List String} (hs : s.Searchable names) {name : String}
    (hmem : name ∈ names) : s.found name = .ok (s.appearances name) := by
  obtain ⟨apps, happs⟩ := hs name hmem
  unfold appearances
  rw [happs]
  rfl

/-- What must be so where these appearances were sent and no failure. -/
structure Complete (s : Scan) (apps : List Appearance) : Prop where
  listed : ∃ names, s.names? = .ok names
  answered : ∀ name ∈ s.ranges, ∃ b, s.answer name = .ok b
  searchable : s.Searchable s.positives
  perm : apps.Perm (s.positives.flatMap s.appearances)

theorem Concludes.complete_of_ok {apps : List Appearance} (h : s.Concludes (apps.map .ok)) :
    s.Complete apps := by
  generalize hsent : apps.map Except.ok = sent at h
  cases h with
  | @complete names hl ha hp hs =>
    have happs : apps = names.flatMap s.appearances :=
      (List.map_inj_right fun _ _ heq => Except.ok.inj heq).mp hsent
    rw [happs]
    exact ⟨hl, ha, fun name hmem => hs name (hp.mem_iff.mpr hmem), hp.flatMap_right _⟩
  | @failed names rest f =>
    have hmem : Except.error f ∈ apps.map Except.ok := by
      rw [hsent]
      simp
    exact absurd hmem (error_not_mem_map_ok apps f)

theorem Finds.complete {apps : List Appearance} (hs : s.Fresh) (h : s.Finds (.ok apps)) :
    s.Complete apps :=
  Concludes.complete_of_ok (Ends.concludes hs h.ends)

/-- When the names cannot be listed, a consumer meets a failure. -/
theorem Finds.error_of_unlisted {outcome : Except Failure (List Appearance)} (hs : s.Fresh)
    (h : s.Finds outcome) (hl : ∀ names, s.names? ≠ .ok names) : ∃ f, outcome = .error f := by
  cases outcome with
  | error f => exact ⟨f, rfl⟩
  | ok apps =>
    obtain ⟨names, hnames⟩ := (h.complete hs).listed
    exact absurd hnames (hl names)

/-- When the names are listed, every filter answers, and every chunk whose filter lets the address
pass can be searched, a consumer finds the appearances of all those chunks. -/
theorem Finds.perm {outcome : Except Failure (List Appearance)} (hs : s.Fresh)
    (h : s.Finds outcome) (hl : ∃ names, s.names? = .ok names)
    (ha : ∀ name ∈ s.ranges, ∃ b, s.answer name = .ok b) (hp : s.Searchable s.positives) :
    ∃ apps, outcome = .ok apps ∧ apps.Perm (s.positives.flatMap s.appearances) := by
  have hnone : ∀ f, ¬ (s.Blames f ∨ ∃ name ∈ s.positives, s.found name = .error f) := by
    intro f hf
    rcases hf with (hf | ⟨name, hmem, hf⟩) | ⟨name, hmem, hf⟩
    · obtain ⟨names, hl⟩ := hl
      rw [hl] at hf
      cases hf
    · obtain ⟨b, hb⟩ := ha name hmem
      rw [hb] at hf
      cases hf
    · obtain ⟨apps, happs⟩ := hp name hmem
      rw [happs] at hf
      cases hf
  cases outcome with
  | ok apps => exact ⟨apps, rfl, (h.complete hs).perm⟩
  | error f =>
    obtain ⟨apps, hends⟩ := h.ends
    obtain ⟨more, hconcludes⟩ := Ends.concludes hs hends
    generalize hemitted : apps.map Except.ok ++ .error f :: more = emitted at hconcludes
    cases hconcludes with
    | @complete names _ _ _ _ =>
      have hmem : Except.error f ∈ s.told names := by
        rw [← hemitted]
        simp
      exact absurd hmem (error_not_mem_map_ok _ f)
    | failed _ _ hf => exact absurd hf (hnone _)

/-- When the names that do not pass hold nothing, those that pass hold everything. -/
theorem flatMap_positives {held : String → List Appearance}
    (hf : ∀ name ∈ s.ranges, s.found name = .ok (held name))
    (hn : ∀ name ∈ s.ranges, s.passes name = false → held name = []) :
    s.positives.flatMap s.appearances = s.ranges.flatMap held := by
  refine flatMap_filter_eq (fun name hmem _ => ?_) hn
  unfold appearances
  rw [hf name hmem]
  rfl

end Scan

end AppearanceIndex
