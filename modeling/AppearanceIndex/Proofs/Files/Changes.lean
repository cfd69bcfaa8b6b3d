import AppearanceIndex.Proofs.Files.Places

/-!
# What writing changes

Making directories adds directories and nothing else (`FileStore.Grows`), and after it the path
leads to a directory. Giving a file a content changes what its own place holds and nothing else
(`FileStore.Gains`), and so does adding to its end (`FileStore.Adds`). A directory is listed with
exactly the names of what lies right below it.
-/

namespace AppearanceIndex.FileStore

variable {s t u : FileStore} {place : Place} {path : Path}

/-! ## Making directories -/

/-- One store has become the other by gaining directories. -/
structure Grows (s t : FileStore) : Prop where
  workingPlace : t.workingPlace = s.workingPlace
  node : ∀ place, t.node? place = s.node? place ∨
    (s.node? place = none ∧ t.node? place = some .directory)

theorem Grows.refl (s : FileStore) : s.Grows s := ⟨rfl, fun _ => .inl rfl⟩

theorem Grows.trans (h : s.Grows t) (h' : t.Grows u) : s.Grows u := by
  refine ⟨h'.workingPlace.trans h.workingPlace, fun place => ?_⟩
  rcases h'.node place with heq' | ⟨hnone', hdir'⟩
  · rw [heq']
    exact h.node place
  · rcases h.node place with heq | ⟨hnone, hdir⟩
    · exact .inr ⟨heq.symm.trans hnone', hdir'⟩
    · exact .inr ⟨hnone, hdir'⟩

theorem Grows.extends (h : s.Grows t) : s.Extends t := by
  refine ⟨h.workingPlace, fun place hp => ?_⟩
  rcases h.node place with heq | ⟨-, hdir⟩
  · rw [heq, hp]
  · exact hdir

/-- What was there stays there. -/
theorem Grows.node_some (h : s.Grows t) {node : FileNode} (hn : s.node? place = some node) :
    t.node? place = some node := by
  rcases h.node place with heq | ⟨hnone, -⟩
  · rw [heq, hn]
  · rw [hn] at hnone
    cases hnone

/-- What was not there before is a directory. -/
theorem Grows.eq_directory (h : s.Grows t) {node : FileNode} (hn : t.node? place = some node) :
    s.node? place = some node ∨ node = .directory := by
  rcases h.node place with heq | ⟨-, hdir⟩
  · exact .inl (heq ▸ hn)
  · rw [hn] at hdir
    exact .inr (Option.some.inj hdir)

theorem grows_put (h : s.node? place = none) : s.Grows (s.put place .directory) := by
  have hne : place ≠ [] := by
    rintro rfl
    cases h
  refine ⟨?_, fun other => ?_⟩
  · unfold put
    split <;> rfl
  · rw [node?_put hne]
    by_cases heq : other = place
    · subst heq
      rw [if_pos rfl]
      exact .inr ⟨h, rfl⟩
    · rw [if_neg heq]
      exact .inl rfl

theorem enterNew_eq_ok {name : String} {next : Place × FileStore}
    (h : enterNew (place, s) name = .ok next) :
    s.Grows next.2 ∧ s.enter place name = .ok next.1 := by
  unfold enterNew at h
  cases henter : s.enter place name with
  | error e =>
    simp only [henter] at h
    cases h
  | ok inside =>
    simp only [henter, bind, Except.bind] at h
    cases hnode : s.node? inside with
    | none =>
      rw [hnode] at h
      cases h
      exact ⟨grows_put hnode, rfl⟩
    | some node =>
      rw [hnode] at h
      cases h
      exact ⟨.refl s, rfl⟩

theorem foldlM_enterNew_eq_ok {names : List String} {last : Place × FileStore}
    (h : names.foldlM enterNew (place, s) = .ok last) :
    s.Grows last.2 ∧ names.foldlM last.2.enter place = .ok last.1 := by
  induction names generalizing place s with
  | nil =>
    cases h
    exact ⟨.refl s, rfl⟩
  | cons name names ih =>
    rw [List.foldlM_cons] at h
    cases hnew : enterNew (place, s) name with
    | error e =>
      rw [hnew] at h
      cases h
    | ok next =>
      obtain ⟨inside, t⟩ := next
      rw [hnew] at h
      obtain ⟨hgrows, henter⟩ := enterNew_eq_ok hnew
      obtain ⟨hgrows', hrest⟩ := ih h
      refine ⟨hgrows.trans hgrows', ?_⟩
      rw [List.foldlM_cons, (hgrows.trans hgrows').extends.enter henter]
      exact hrest

/-- Where directories were made, the path leads to a directory. -/
theorem createDirectories_eq_ok (h : s.createDirectories path = .ok t) (hp : path.text ≠ "") :
    s.Grows t ∧ t.locate path = .ok (s.target path) ∧
      t.node? (s.target path) = some .directory := by
  unfold createDirectories at h
  rw [if_neg hp] at h
  cases horigin : s.origin path with
  | error e =>
    simp only [horigin] at h
    cases h
  | ok start =>
    simp only [horigin, bind, Except.bind] at h
    cases hfold : path.components.foldlM enterNew (start, s) with
    | error e =>
      rw [hfold] at h
      cases h
    | ok last =>
      rw [hfold] at h
      obtain ⟨place, last⟩ := last
      obtain ⟨hgrows, hlast⟩ := foldlM_enterNew_eq_ok hfold
      cases hnode : last.node? place with
      | none =>
        simp only [hnode] at h
        cases h
      | some node =>
        simp only [hnode] at h
        cases node with
        | file | device => cases h
        | directory =>
          cases h
          have hsame : t.origin path = .ok start := by
            rw [← horigin]
            unfold origin
            rw [hgrows.workingPlace]
          have hlocate : t.locate path = .ok place := by
            unfold locate
            rw [hsame]
            exact hlast
          have htarget : s.target path = place := by
            rw [← hgrows.extends.target_eq, target_of_locate hlocate]
          rw [htarget]
          exact ⟨hgrows, hlocate, hnode⟩

/-! ## Writing files -/

/-- One store has become the other by giving the file at a place a content. -/
structure Gains (s t : FileStore) (place : Place) (bs : Bytes) : Prop where
  workingPlace : t.workingPlace = s.workingPlace
  vacant : ∀ node, s.node? place = some node → ∃ old, node = .file old
  node : ∀ other, t.node? other = if other = place then some (.file bs) else s.node? other

theorem Gains.extends {bs : Bytes} (h : s.Gains t place bs) : s.Extends t := by
  refine ⟨h.workingPlace, fun other ho => ?_⟩
  rw [h.node]
  by_cases heq : other = place
  · subst heq
    obtain ⟨old, hold⟩ := h.vacant _ ho
    cases hold
  · rw [if_neg heq, ho]

theorem workingPlace_put (s : FileStore) (place : Place) (node : FileNode) :
    (s.put place node).workingPlace = s.workingPlace := by
  unfold put
  split <;> rfl

/-- What lies at a place is a directory or a file that takes every write, if anything does. -/
def Plain (s : FileStore) (place : Place) : Prop :=
  ∀ node, s.node? place = some node → node = .directory ∨ ∃ old, node = .file old

theorem ne_nil_of_file {content : Bytes} {limits : List WriteLimit}
    (h : s.node? place = some (.file content limits)) : place ≠ [] := by
  rintro rfl
  cases h

/-- A file without limits takes a write. -/
theorem append_of_file {content : Bytes} (h : s.node? place = some (.file content)) (bs : Bytes) :
    s.append place bs = (.ok (), s.put place (.file (content ++ bs))) := by
  unfold append
  rw [h]
  rfl

theorem exists_append_truncate {old : Bytes} (h : s.node? place = some (.file old)) (bs : Bytes) :
    ∃ t, (s.truncate place).append place bs = (.ok (), t) ∧ t.workingPlace = s.workingPlace ∧
      ∀ other, t.node? other = if other = place then some (.file bs) else s.node? other := by
  have hne := ne_nil_of_file h
  have hempty : (s.truncate place).node? place = some (.file []) := by
    unfold truncate
    rw [h, node?_put hne, if_pos rfl]
  have hother : ∀ other, other ≠ place → (s.truncate place).node? other = s.node? other := by
    intro other hn
    unfold truncate
    rw [h, node?_put hne, if_neg hn]
  have hworking : (s.truncate place).workingPlace = s.workingPlace := by
    unfold truncate
    rw [h, workingPlace_put]
  refine ⟨_, append_of_file hempty bs, (workingPlace_put _ _ _).trans hworking, fun other => ?_⟩
  rw [node?_put hne]
  split
  · rfl
  · next hn => exact hother other hn

/-- A file that was written lies where its path leads, if nothing there refuses writes. -/
theorem write_eq_ok {bs : Bytes} (h : s.write path bs = .ok t) (hd : s.Plain (s.target path)) :
    s.Gains t (s.target path) bs ∧ s.locate path = .ok (s.target path) ∧
      meansDirectory path = false := by
  unfold write openWrite at h
  cases hlocate : s.locate path with
  | error e =>
    simp only [hlocate] at h
    cases h
  | ok place =>
    have htarget := target_of_locate hlocate
    rw [htarget] at hd ⊢
    simp only [hlocate, bind, Except.bind] at h
    cases hmeans : meansDirectory path with
    | true =>
      rw [hmeans] at h
      cases h
    | false =>
      simp only [hmeans, Bool.false_eq_true, if_false] at h
      refine ⟨?_, rfl, rfl⟩
      cases hnode : s.node? place with
      | none =>
        have hne : place ≠ [] := by
          rintro rfl
          cases hnode
        have hnew : (s.put place (.file [])).node? place = some (.file []) := by
          rw [node?_put hne, if_pos rfl]
        obtain ⟨u, hu, hworking, hall⟩ := exists_append_truncate hnew bs
        simp only [hnode, hu] at h
        cases h
        refine ⟨hworking.trans (workingPlace_put _ _ _), by simp [hnode], fun other => ?_⟩
        rw [hall, node?_put hne]
        split <;> rfl
      | some node =>
        rcases hd node hnode with rfl | ⟨old, rfl⟩
        · simp only [hnode] at h
          cases h
        · obtain ⟨u, hu, hworking, hall⟩ := exists_append_truncate hnode bs
          simp only [hnode, hu] at h
          cases h
          refine ⟨hworking, fun node hn => ?_, hall⟩
          rw [hnode] at hn
          exact ⟨old, (Option.some.inj hn).symm⟩

def nodeContent? : FileNode → Option Bytes
  | .file content _ => some content
  | _ => none

/-- A regular file of this content lies at the place, whatever it does with the next writes. -/
def Holds (s : FileStore) (place : Place) (content : Bytes) : Prop :=
  ∃ limits, s.node? place = some (.file content limits)

theorem holds_iff {content : Bytes} :
    s.Holds place content ↔ (s.node? place).bind nodeContent? = some content := by
  constructor
  · rintro ⟨limits, hnode⟩
    rw [hnode]
    rfl
  · intro h
    obtain ⟨node, hnode, hcontent⟩ := Option.bind_eq_some_iff.mp h
    cases node with
    | file old limits =>
      cases hcontent
      exact ⟨limits, hnode⟩
    | _ => cases hcontent

instance (content : Bytes) : Decidable (s.Holds place content) :=
  decidable_of_iff _ holds_iff.symm

/-- One store has become the other by adding bytes to the end of the file at a place, if one is
there. Limits that were met are gone. -/
structure Adds (s t : FileStore) (place : Place) (bs : Bytes) : Prop where
  workingPlace : t.workingPlace = s.workingPlace
  file : ∀ content limits, s.node? place = some (.file content limits) →
    ∃ left, left <:+ limits ∧ t.node? place = some (.file (content ++ bs) left)
  same : ∀ other, (other = place → ∀ content, ¬ s.Holds place content) →
    t.node? other = s.node? other

theorem Adds.plain {bs content : Bytes} (h : s.Adds t place bs)
    (hf : s.node? place = some (.file content)) : t.node? place = some (.file (content ++ bs)) := by
  obtain ⟨left, hleft, hnode⟩ := h.file content [] hf
  rw [List.suffix_nil.mp hleft] at hnode
  exact hnode

theorem Adds.holds {bs content : Bytes} (h : s.Adds t place bs) (hf : s.Holds place content) :
    t.Holds place (content ++ bs) := by
  obtain ⟨limits, hnode⟩ := hf
  obtain ⟨left, -, hadded⟩ := h.file content limits hnode
  exact ⟨left, hadded⟩

/-- A file keeps a beginning of what is written, and all of it if and only if the write succeeds. -/
theorem limited_keeps (bs : Bytes) (limit : Option WriteLimit) :
    (limited bs limit).2 <+: bs ∧ ((limited bs limit).1 = .ok () ↔ (limited bs limit).2 = bs) := by
  cases limit with
  | none => simp [limited]
  | some limit =>
    by_cases hfits : bs.length ≤ limit.room
    · simp [limited, hfits]
    · have hpart : bs.take limit.room ≠ bs := fun hall => by
        have hlength := List.length_take_le limit.room bs
        rw [hall] at hlength
        exact hfits hlength
      simpa [limited, hfits, hpart] using List.take_prefix _ _

/-- An addition that fails may have added a part, which is never all. -/
theorem adds_append (s : FileStore) (place : Place) (bs : Bytes) :
    ∃ kept, s.Adds (s.append place bs).2 place kept ∧ kept <+: bs ∧
      ((s.append place bs).1 = .ok () ↔ kept = bs) := by
  have hkeep : ∀ kept, (∀ content, ¬ s.Holds place content) → s.Adds s place kept :=
    fun kept hn => ⟨rfl, fun content limits hc => absurd ⟨limits, hc⟩ (hn content), fun _ _ => rfl⟩
  unfold append
  split
  · next content limits hnode =>
    have hne := ne_nil_of_file hnode
    refine ⟨_, ⟨workingPlace_put _ _ _, fun old more hold => ?_, fun other hother => ?_⟩,
      limited_keeps bs limits.head?⟩
    · rw [hnode] at hold
      cases hold
      exact ⟨_, List.tail_suffix _, by rw [node?_put hne, if_pos rfl]⟩
    · have hplace : other ≠ place := fun heq => hother heq content ⟨limits, hnode⟩
      rw [node?_put hne, if_neg hplace]
  · next full hnode =>
    have hn : ∀ content, ¬ s.Holds place content := by
      rintro content ⟨limits, hc⟩
      rw [hnode] at hc
      cases hc
    by_cases hbs : (full && !bs.isEmpty) = true
    · refine ⟨[], hkeep [] hn, List.nil_prefix, ?_⟩
      simp only [hbs, if_true, reduceCtorEq, false_iff]
      rintro rfl
      simp at hbs
    · exact ⟨bs, hkeep bs hn, List.prefix_rfl, by simp [hbs]⟩
  · next hfile _ =>
    refine ⟨bs, hkeep bs fun content ⟨limits, hc⟩ => ?_, List.prefix_rfl, by simp⟩
    exact hfile content limits hc

/-! ## Reading back -/

theorem openRead_of_file {bs : Bytes} (hl : s.locate path = .ok place)
    (hn : s.node? place = some (.file bs)) (hm : meansDirectory path = false) :
    s.openRead path = .ok (.content bs) := by
  unfold openRead
  simp only [hl, hn, hm, bind, Except.bind]
  rfl

theorem contentOf_of_openRead {bs : Bytes} (h : s.openRead path = .ok (.content bs)) :
    s.contentOf path = .ok bs := by
  unfold contentOf
  rw [h]
  rfl

theorem openRead_of_contentOf {bs : Bytes} (h : s.contentOf path = .ok bs) :
    s.openRead path = .ok (.content bs) := by
  unfold FileStore.contentOf at h
  cases hread : s.openRead path with
  | error e =>
    rw [hread] at h
    cases h
  | ok opened =>
    rw [hread] at h
    cases opened with
    | directory => cases h
    | content content =>
      cases h
      rfl

/-- A directory is listed with what lies right below it. -/
theorem readDirectory_of_locate (hl : s.locate path = .ok place)
    (hn : s.node? place = some .directory) :
    ∃ entries, s.readDirectory path = .ok entries ∧
      ∀ name node, (name, node) ∈ entries ↔ s.node? (place ++ [name]) = some node := by
  unfold readDirectory
  simp only [hl, hn, bind, Except.bind]
  refine ⟨_, rfl, fun name node => ?_⟩
  rw [← mem_nodes_iff (by simp), List.mem_filterMap]
  constructor
  · rintro ⟨⟨at_, other⟩, hmem, hentry⟩
    simp only at hentry
    split at hentry
    · next hlast =>
      split at hentry
      · next hplace =>
        cases hentry
        rw [← hplace]
        exact hmem
      · cases hentry
    · cases hentry
  · intro hmem
    refine ⟨_, hmem, ?_⟩
    simp

end AppearanceIndex.FileStore
