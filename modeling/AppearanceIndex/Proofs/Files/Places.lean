import AppearanceIndex.Files.Store

/-!
# Where paths lead

A path that can be followed leads to the place that its names spell (`FileStore.target`), whatever
the store holds, and it still leads there when the store has gained files and directories
(`FileStore.Extends`). The entry of a directory that has a plain name (`FileName.Plain`) lies right
below the directory.
-/

namespace AppearanceIndex

/-- A name of one piece that stands for itself. -/
structure FileName.Plain (name : String) : Prop where
  nonempty : name ≠ ""
  whole : '/' ∉ name.toList
  notHere : name ≠ "."
  notUp : name ≠ ".."

/-! ## Entries of a directory -/

namespace Path

theorem pieces_of_not_mem {cs : List Char} (h : '/' ∉ cs) : pieces cs = [cs] := by
  induction cs with
  | nil => rfl
  | cons c cs ih =>
    rw [List.mem_cons, not_or] at h
    rw [pieces, if_neg (fun heq => h.1 heq.symm), ih h.2]

theorem pieces_append_slash (cs ds : List Char) :
    pieces (cs ++ '/' :: ds) = pieces cs ++ pieces ds := by
  induction cs with
  | nil => rfl
  | cons c cs ih =>
    rw [List.cons_append, pieces, pieces, ih]
    split
    · rfl
    · cases hcs : pieces cs with
      | nil =>
        -- a text has at least one piece
        cases cs with
        | nil => cases hcs
        | cons c cs =>
          rw [pieces] at hcs
          split at hcs
          · cases hcs
          · split at hcs <;> cases hcs
      | cons piece rest => rfl

theorem components_of_toList {p q : Path} {name : String} (hp : FileName.Plain name)
    (h : q.text.toList = p.text.toList ++ '/' :: name.toList ∨
      (∃ cs, p.text.toList = cs ++ ['/'] ∧ q.text.toList = cs ++ '/' :: name.toList) ∨
      (p.text.toList = [] ∧ q.text.toList = name.toList)) :
    q.components = p.components ++ [name] := by
  have hname : pieces name.toList = [name.toList] := pieces_of_not_mem hp.whole
  have hne : name.toList ≠ [] := fun h => hp.nonempty (String.toList_inj.mp (by simpa using h))
  have hself : String.ofList name.toList = name := by simp
  unfold components
  rcases h with h | ⟨cs, hcs, h⟩ | ⟨hcs, h⟩
  · rw [h, pieces_append_slash, hname, List.filter_append, List.map_append]
    simp [hne]
  · rw [h, hcs, pieces_append_slash, pieces_append_slash, hname, List.filter_append,
      List.filter_append, List.map_append, List.map_append]
    simp [hne, pieces]
  · rw [h, hcs, hname]
    simp [hne, pieces]

variable {p : Path} {name : String}

theorem not_isAbsolute_of_plain (h : FileName.Plain name) : (⟨name⟩ : Path).isAbsolute = false := by
  unfold isAbsolute
  rw [decide_eq_false_iff_not]
  intro hhead
  exact h.whole (List.mem_of_mem_head? hhead)

theorem text_entry (h : FileName.Plain name) :
    (p.entry name).text =
      if p.text = "" || p.endsInSlash then p.text ++ name else p.text ++ "/" ++ name := by
  unfold entry push
  rw [not_isAbsolute_of_plain h, if_neg Bool.false_ne_true]
  split <;> rfl

/-- The names on the way to an entry are those on the way to its directory, and its own. -/
theorem components_entry (h : FileName.Plain name) :
    (p.entry name).components = p.components ++ [name] := by
  refine components_of_toList h ?_
  rw [text_entry h]
  by_cases hempty : p.text = ""
  · right; right
    simp [hempty]
  · by_cases hslash : p.endsInSlash = true
    · right; left
      have hlast : p.text.toList.getLast? = some '/' := by
        unfold endsInSlash at hslash
        exact of_decide_eq_true hslash
      obtain ⟨cs, hcs⟩ := List.getLast?_eq_some_iff.mp hlast
      refine ⟨cs, hcs, ?_⟩
      simp [hslash, hcs]
    · left
      simp [hempty, hslash]

theorem isAbsolute_entry (h : FileName.Plain name) :
    (p.entry name).isAbsolute = p.isAbsolute := by
  by_cases hempty : p.text = ""
  · have hpath : p.entry name = ⟨name⟩ := by
      refine congrArg Path.mk (?_ : (p.entry name).text = name)
      rw [text_entry h]
      simp [hempty]
    rw [hpath, not_isAbsolute_of_plain h]
    unfold isAbsolute
    rw [hempty]
    rfl
  · have hne : p.text.toList ≠ [] := fun hnil => hempty (String.toList_inj.mp (by simpa using hnil))
    obtain ⟨c, cs, hcs⟩ := List.exists_cons_of_ne_nil hne
    unfold isAbsolute
    rw [text_entry h]
    split <;> simp [hcs]

theorem text_entry_ne (h : FileName.Plain name) : (p.entry name).text ≠ "" := by
  intro heq
  have hcomponents := components_entry (p := p) h
  unfold components at hcomponents
  rw [heq] at hcomponents
  simp [pieces] at hcomponents

end Path

namespace FileStore

/-! ## What a place holds -/

variable {s t u : FileStore} {place : Place} {name : String} {path : Path}

theorem node?_of_ne_nil (h : place ≠ []) :
    s.node? place = (s.nodes.find? (·.1 = place)).map Prod.snd := by
  unfold node?
  rw [if_neg h]

theorem mem_nodes_iff {node : FileNode} (h : place ≠ []) :
    (place, node) ∈ s.nodes ↔ s.node? place = some node := by
  rw [node?_of_ne_nil h]
  constructor
  · intro hmem
    have hnodup := List.pairwise_map.mp s.nodup
    generalize s.nodes = nodes at hmem hnodup
    induction nodes with
    | nil => cases hmem
    | cons entry nodes ih =>
      rw [List.pairwise_cons] at hnodup
      rw [List.find?_cons]
      rcases List.mem_cons.mp hmem with rfl | hmem
      · simp
      · have hne : entry.1 ≠ place := hnodup.1 _ hmem
        simp only [hne, decide_false]
        exact ih hmem hnodup.2
  · intro hfind
    obtain ⟨entry, hentry, rfl⟩ := Option.map_eq_some_iff.mp hfind
    have hplace : entry.1 = place := by simpa using List.find?_some hentry
    rw [← hplace]
    exact List.mem_of_find?_eq_some hentry

theorem node?_put (h : place ≠ []) (node : FileNode) (other : Place) :
    (s.put place node).node? other = if other = place then some node else s.node? other := by
  by_cases hnil : other = []
  · subst hnil
    rw [if_neg (fun heq => h heq.symm)]
    rfl
  · rw [node?_of_ne_nil hnil, node?_of_ne_nil hnil]
    unfold put
    split
    · next hsome =>
      simp only [List.find?_map, Option.map_map]
      have hsame : ((fun entry : Place × FileNode => decide (entry.1 = other)) ∘
          replaced place node) = fun entry => decide (entry.1 = other) := by
        funext entry
        simp [fst_replaced]
      rw [hsame]
      split
      · next heq =>
        obtain ⟨entry, hentry⟩ := Option.isSome_iff_exists.mp hsome
        have hplace : entry.1 = place := by simpa using List.find?_some hentry
        rw [heq, hentry]
        simp [replaced, hplace]
      · next hne =>
        cases hfind : s.nodes.find? (fun entry => decide (entry.1 = other)) with
        | none => rfl
        | some entry =>
          have hplace : entry.1 = other := by simpa using List.find?_some hfind
          have hkeep : entry.1 ≠ place := hplace.symm ▸ hne
          simp [replaced, hkeep]
    · next hnone =>
      have hfind : s.nodes.find? (fun entry => decide (entry.1 = place)) = none :=
        Option.not_isSome_iff_eq_none.mp hnone
      rw [List.find?_append]
      by_cases heq : other = place
      · subst heq
        rw [if_pos rfl, hfind]
        simp
      · have hskip : [(place, node)].find? (fun entry => decide (entry.1 = other)) = none := by
          simp [Ne.symm heq]
        rw [if_neg heq, hskip, Option.or_none]

/-! ## Following a path -/

/-- One name further, whatever lies there. -/
def follow (place : Place) (name : String) : Place :=
  if name = "." then place else if name = ".." then place.dropLast else place ++ [name]

/-- The place that a path spells. -/
def target (s : FileStore) (path : Path) : Place :=
  path.components.foldl follow (if path.isAbsolute then [] else s.workingPlace)

/-- The entry of a directory lies right below it. -/
theorem target_entry (h : FileName.Plain name) :
    s.target (path.entry name) = s.target path ++ [name] := by
  unfold target
  rw [Path.components_entry h, Path.isAbsolute_entry h, List.foldl_append]
  show follow _ name = _
  unfold follow
  rw [if_neg h.notHere, if_neg h.notUp]

theorem enter_eq_ok {next : Place} (h : s.enter place name = .ok next) :
    s.node? place = some .directory ∧ next = follow place name := by
  unfold enter at h
  cases hnode : s.node? place with
  | none =>
    rw [hnode] at h
    cases h
  | some node =>
    rw [hnode] at h
    cases node with
    | file | device => cases h
    | directory =>
      refine ⟨rfl, ?_⟩
      unfold follow
      simp only at h
      by_cases hhere : name = "."
      · rw [if_pos hhere] at h ⊢
        exact (Except.ok.inj h).symm
      · rw [if_neg hhere] at h ⊢
        by_cases hup : name = ".."
        · rw [if_pos hup] at h ⊢
          exact (Except.ok.inj h).symm
        · rw [if_neg hup] at h ⊢
          split at h
          · cases h
          · exact (Except.ok.inj h).symm

theorem foldlM_enter_eq_ok {names : List String} {next : Place}
    (h : names.foldlM s.enter place = .ok next) : next = names.foldl follow place := by
  induction names generalizing place with
  | nil =>
    cases h
    rfl
  | cons name names ih =>
    rw [List.foldlM_cons] at h
    cases henter : s.enter place name with
    | error e =>
      rw [henter] at h
      cases h
    | ok mid =>
      rw [henter] at h
      rw [List.foldl_cons, ← (enter_eq_ok henter).2]
      exact ih h

theorem origin_eq_ok {start : Place} (h : s.origin path = .ok start) :
    start = if path.isAbsolute then [] else s.workingPlace := by
  unfold origin at h
  split at h
  · cases h
  · split at h
    · cases h
    · split at h
      · cases h
      · cases h
        rfl

/-- A path that can be followed leads to the place that it spells. -/
theorem target_of_locate (h : s.locate path = .ok place) : s.target path = place := by
  unfold locate at h
  cases horigin : s.origin path with
  | error e =>
    rw [horigin] at h
    cases h
  | ok start =>
    rw [horigin] at h
    rw [foldlM_enter_eq_ok h, origin_eq_ok horigin]
    rfl

/-! ## Stores that hold more -/

/-- Every directory of one store is one of the other, and paths begin at the same place. -/
structure Extends (s t : FileStore) : Prop where
  workingPlace : t.workingPlace = s.workingPlace
  directory : ∀ place, s.node? place = some .directory → t.node? place = some .directory

theorem Extends.refl (s : FileStore) : s.Extends s := ⟨rfl, fun _ h => h⟩

theorem Extends.trans (h : s.Extends t) (h' : t.Extends u) : s.Extends u :=
  ⟨h'.workingPlace.trans h.workingPlace, fun place hp => h'.directory place (h.directory place hp)⟩

theorem Extends.target_eq (h : s.Extends t) (path : Path) : t.target path = s.target path := by
  unfold target
  rw [h.workingPlace]

theorem Extends.enter (h : s.Extends t) {next : Place} (he : s.enter place name = .ok next) :
    t.enter place name = .ok next := by
  have hnode := (enter_eq_ok he).1
  unfold FileStore.enter at he ⊢
  rw [hnode] at he
  rw [h.directory place hnode]
  exact he

theorem Extends.foldlM_enter (h : s.Extends t) {names : List String} {next : Place}
    (he : names.foldlM s.enter place = .ok next) : names.foldlM t.enter place = .ok next := by
  induction names generalizing place with
  | nil => exact he
  | cons name names ih =>
    rw [List.foldlM_cons] at he ⊢
    cases henter : s.enter place name with
    | error e =>
      rw [henter] at he
      cases he
    | ok mid =>
      rw [henter] at he
      rw [h.enter henter]
      exact ih he

theorem Extends.locate (h : s.Extends t) (hl : s.locate path = .ok place) :
    t.locate path = .ok place := by
  unfold FileStore.locate at hl ⊢
  have horigin : t.origin path = s.origin path := by
    unfold origin
    rw [h.workingPlace]
  rw [horigin]
  cases hs : s.origin path with
  | error e =>
    rw [hs] at hl
    cases hl
  | ok start =>
    rw [hs] at hl
    exact h.foldlM_enter hl

end FileStore

end AppearanceIndex
