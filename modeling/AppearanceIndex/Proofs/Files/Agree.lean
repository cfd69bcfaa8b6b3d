import AppearanceIndex.Proofs.Files.Changes

/-!
# Stores that differ in some files only

Two stores agree but for some places (`FileStore.Agrees`) when there both hold files, of whatever
content. They lead every path to the same place, and read the same wherever it is not one of these.
-/

namespace AppearanceIndex.FileStore

variable {s t u : FileStore} {place : Place} {bs more : Bytes} {touched : Place → Prop}

/-! ## Additions one after another -/

theorem Adds.refl (s : FileStore) (place : Place) : s.Adds s place [] where
  workingPlace := rfl
  file := fun content limits hc => ⟨limits, List.suffix_rfl, by rw [List.append_nil]; exact hc⟩
  same := fun _ _ => rfl

theorem Adds.trans (h : s.Adds t place bs) (h' : t.Adds u place more) :
    s.Adds u place (bs ++ more) where
  workingPlace := h'.workingPlace.trans h.workingPlace
  file := fun content limits hc => by
    obtain ⟨left, hleft, hadded⟩ := h.file content limits hc
    obtain ⟨left', hleft', hadded'⟩ := h'.file _ left hadded
    exact ⟨left', hleft'.trans hleft, by rw [← List.append_assoc, hadded']⟩
  same := fun other ho => by
    rw [h'.same other fun heq content hc => ?_, h.same other ho]
    obtain ⟨limits, hc⟩ := hc
    rw [h.same place fun _ => ho heq] at hc
    exact ho heq content ⟨limits, hc⟩

theorem Adds.node?_of_ne (h : s.Adds t place bs) {other : Place} (hne : other ≠ place) :
    t.node? other = s.node? other := h.same other fun heq => absurd heq hne

/-! ## Agreement -/

/-- Both stores hold the same but for the content of files at some places. -/
structure Agrees (touched : Place → Prop) (s t : FileStore) : Prop where
  workingPlace : t.workingPlace = s.workingPlace
  node : ∀ place, t.node? place = s.node? place ∨
    touched place ∧ ∃ old new, s.Holds place old ∧ t.Holds place new

theorem Agrees.refl (touched : Place → Prop) (s : FileStore) : Agrees touched s s :=
  ⟨rfl, fun _ => .inl rfl⟩

theorem Agrees.trans (h : Agrees touched s t) (h' : Agrees touched t u) : Agrees touched s u where
  workingPlace := h'.workingPlace.trans h.workingPlace
  node := fun place => by
    rcases h.node place with heq | ⟨ht, old, new, hs, hn⟩
    · simpa only [Holds, heq] using h'.node place
    · rcases h'.node place with heq' | ⟨-, old', new', -, hn'⟩
      · exact .inr ⟨ht, old, new, hs, hn.imp fun _ hnew => heq'.trans hnew⟩
      · exact .inr ⟨ht, old, new', hs, hn'⟩

theorem Adds.agrees (h : s.Adds t place bs) (hp : touched place) : Agrees touched s t where
  workingPlace := h.workingPlace
  node := fun other => by
    by_cases hfile : other = place ∧ ∃ content, s.Holds place content
    · obtain ⟨rfl, content, hc⟩ := hfile
      exact .inr ⟨hp, content, _, hc, h.holds hc⟩
    · exact .inl (h.same other fun heq content hc => hfile ⟨heq, content, hc⟩)

theorem Agrees.enter_eq (h : Agrees touched s t) (place : Place) (name : String) :
    t.enter place name = s.enter place name := by
  unfold enter
  rcases h.node place with heq | ⟨-, old, new, ⟨_, hs⟩, ⟨_, ht⟩⟩
  · rw [heq]
  · rw [hs, ht]

theorem Agrees.locate_eq (h : Agrees touched s t) (path : Path) :
    t.locate path = s.locate path := by
  have henter : t.enter = s.enter := by
    funext place name
    exact h.enter_eq place name
  unfold locate origin
  rw [henter, h.workingPlace]

/-- A path that leads elsewhere reads the same. -/
theorem Agrees.contentOf_eq (h : Agrees touched s t) {path : Path}
    (hp : ¬ touched (s.target path)) : t.contentOf path = s.contentOf path := by
  have hread : t.openRead path = s.openRead path := by
    unfold openRead
    rw [h.locate_eq]
    cases hl : s.locate path with
    | error e => rfl
    | ok place =>
      rw [target_of_locate hl] at hp
      rcases h.node place with heq | ⟨ht, -⟩
      · simp only [bind, Except.bind, heq]
      · exact absurd ht hp
  unfold contentOf
  rw [hread]

end AppearanceIndex.FileStore
