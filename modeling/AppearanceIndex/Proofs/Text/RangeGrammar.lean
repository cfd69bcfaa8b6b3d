import Mathlib.Data.List.DropRight
import AppearanceIndex.Error
import AppearanceIndex.Proofs.Text.Numeral

/-!
# The grammar of range names

A range is named by two numerals around a dash, with directories in front and the ending of a file
behind, both of which may be missing (`BlockRange.NameParts`). Reading finds the parts again one
after the other: the base name behind the last separator, what the ending was added to, and the
numerals around the first dash. That each of these steps undoes how the name was put together makes
the parts unique; that it loses nothing makes every name that is read one of the grammar.
-/

namespace AppearanceIndex.BlockRange

/-! ## Steps of reading -/

/-- What may stand in front of a base name. -/
def EndsInSeparator (cs : List Char) : Prop :=
  cs = [] ∨ ∃ above c, cs = above ++ [c] ∧ isSeparator c = true

theorem baseName_append {directory cs : List Char} (hd : EndsInSeparator directory)
    (hcs : ∀ c ∈ cs, isSeparator c = false) : baseName (directory ++ cs) = cs := by
  have hall : ∀ c ∈ cs.reverse, (!isSeparator c) = true := by
    intro c hc
    rw [hcs c (List.mem_reverse.mp hc)]
    rfl
  have hstop : directory.reverse.takeWhile (!isSeparator ·) = [] := by
    rcases hd with rfl | ⟨above, c, rfl, hc⟩
    · rfl
    · simp [hc]
  unfold baseName
  rw [List.reverse_append, List.takeWhile_append_of_pos hall, hstop, List.append_nil,
    List.reverse_reverse]

theorem exists_directory (cs : List Char) :
    ∃ directory, cs = directory ++ baseName cs ∧ EndsInSeparator directory := by
  refine ⟨cs.rdropWhile (!isSeparator ·), List.rdropWhile_append_rtakeWhile.symm, ?_⟩
  by_cases hnil : cs.rdropWhile (!isSeparator ·) = []
  · exact .inl hnil
  · have hlast := List.rdropWhile_last_not _ _ hnil
    simp only [Bool.not_eq_true', Bool.not_eq_false] at hlast
    exact .inr ⟨_, _, (List.dropLast_append_getLast hnil).symm, hlast⟩

theorem stripEnding?_eq_some_iff {ending cs front : List Char} :
    stripEnding? ending cs = some front ↔ cs = front ++ ending := by
  unfold stripEnding?
  constructor
  · intro h
    split at h
    · next hsuffix =>
      obtain ⟨before, rfl⟩ := List.isSuffixOf_iff_suffix.mp hsuffix
      simp only [List.length_append, Nat.add_sub_cancel, List.take_left', Option.some.injEq] at h
      rw [h]
    · cases h
  · rintro rfl
    rw [if_pos (List.isSuffixOf_iff_suffix.mpr (List.suffix_append front ending))]
    simp

theorem stripEnding?_of_not_mem {ending cs : List Char} {c : Char} (he : c ∈ ending)
    (h : c ∉ cs) : stripEnding? ending cs = none := by
  refine Option.eq_none_iff_forall_ne_some.mpr fun front hfront => ?_
  rw [stripEnding?_eq_some_iff.mp hfront] at h
  exact h (List.mem_append_right front he)

/-- An ending that is dropped from a name. -/
def IsEnding (s : String) : Prop := s = "" ∨ s = ".bin" ∨ s = ".bloom"

theorem stripExtension_append {cs : List Char} {ending : String} (he : IsEnding ending)
    (h : '.' ∉ cs) : stripExtension (cs ++ ending.toList) = cs := by
  unfold stripExtension
  rcases he with rfl | rfl | rfl
  · have hnil : cs ++ "".toList = cs := by simp
    rw [hnil, stripEnding?_of_not_mem (c := '.') (by simp) h,
      stripEnding?_of_not_mem (c := '.') (by simp) h]
    rfl
  · have hbin : stripEnding? ['.', 'b', 'i', 'n'] (cs ++ ".bin".toList) = some cs :=
      stripEnding?_eq_some_iff.mpr (by simp)
    rw [hbin]
    rfl
  · -- the other ending does not have the same last character
    have hbin : stripEnding? ['.', 'b', 'i', 'n'] (cs ++ ".bloom".toList) = none := by
      refine Option.eq_none_iff_forall_ne_some.mpr fun front hfront => ?_
      have hlast := congrArg List.getLast? (stripEnding?_eq_some_iff.mp hfront)
      simp at hlast
    have hbloom : stripEnding? ['.', 'b', 'l', 'o', 'o', 'm'] (cs ++ ".bloom".toList) = some cs :=
      stripEnding?_eq_some_iff.mpr (by simp)
    rw [hbin, hbloom]
    rfl

theorem exists_ending (cs : List Char) :
    ∃ ending, IsEnding ending ∧ cs = stripExtension cs ++ ending.toList := by
  unfold stripExtension
  cases hbin : stripEnding? ['.', 'b', 'i', 'n'] cs with
  | some front => exact ⟨".bin", .inr (.inl rfl), by simpa using stripEnding?_eq_some_iff.mp hbin⟩
  | none =>
    cases hbloom : stripEnding? ['.', 'b', 'l', 'o', 'o', 'm'] cs with
    | some front =>
      exact ⟨".bloom", .inr (.inr rfl), by simpa using stripEnding?_eq_some_iff.mp hbloom⟩
    | none => exact ⟨"", .inl rfl, by simp⟩

/-- A text is cut at its first dash. -/
theorem cut_dash {first last : List Char} (h : '-' ∉ first) :
    (first ++ '-' :: last).takeWhile (· ≠ '-') = first ∧
      (first ++ '-' :: last).dropWhile (· ≠ '-') = '-' :: last := by
  have hall : ∀ c ∈ first, decide (c ≠ '-') = true := by
    intro c hc
    rw [decide_eq_true_eq]
    rintro rfl
    exact h hc
  rw [List.takeWhile_append_of_pos hall, List.dropWhile_append_of_pos hall]
  simp

/-- Two numerals around a dash are read if their numbers are bounds of a range. -/
theorem parseBare?_append {first last : List Char} {a b : Nat}
    (hf : Decimal.Numeral first a) (hl : Decimal.Numeral last b) :
    parseBare? (first ++ '-' :: last) =
      if a ≤ b ∧ b < UInt64.size then some ⟨UInt64.ofNat a, UInt64.ofNat b⟩ else none := by
  have hdash : '-' ∉ first := hf.not_mem (by decide) (by decide)
  unfold parseBare?
  rw [(cut_dash hdash).1, (cut_dash hdash).2]
  simp only [hf.unsigned?_eq, hl.unsigned?_eq]
  by_cases hb : b < UInt64.size
  · by_cases hab : a ≤ b
    · simp [ofBounds?, hb, hab, Nat.lt_of_le_of_lt hab hb]
    · by_cases ha : a < UInt64.size <;> simp [ofBounds?, hb, hab, ha]
  · by_cases ha : a < UInt64.size <;> simp [hb, ha]

theorem exists_numerals_of_parseBare? {cs : List Char} {r : BlockRange}
    (h : parseBare? cs = some r) :
    ∃ first last, cs = first ++ '-' :: last ∧ Decimal.Numeral first r.first.toNat ∧
      Decimal.Numeral last r.last.toNat ∧ r.first ≤ r.last := by
  unfold parseBare? at h
  split at h
  · cases h
  · next c rest hdrop =>
    have hdash : c = '-' := by
      have hhead := List.head?_dropWhile_not (· ≠ '-') cs
      rw [hdrop] at hhead
      simpa using hhead
    subst hdash
    obtain ⟨a, hfirst, h⟩ := Option.bind_eq_some_iff.mp h
    obtain ⟨b, hlast, h⟩ := Option.bind_eq_some_iff.mp h
    obtain ⟨hfirst, ha⟩ := Decimal.unsigned?_eq_some_iff.mp hfirst
    obtain ⟨hlast, hb⟩ := Decimal.unsigned?_eq_some_iff.mp hlast
    unfold ofBounds? at h
    split at h
    · next hab =>
      cases h
      refine ⟨cs.takeWhile (· ≠ '-'), rest, ?_, ?_, ?_, ?_⟩
      · rw [← hdrop, List.takeWhile_append_dropWhile]
      · rwa [UInt64.toNat_ofNat_of_lt' ha]
      · rwa [UInt64.toNat_ofNat_of_lt' hb]
      · rwa [UInt64.le_iff_toNat_le, UInt64.toNat_ofNat_of_lt' ha, UInt64.toNat_ofNat_of_lt' hb]
    · cases h

/-! ## Names and their parts -/

/-- What may stand in front of a name: nothing, or text that ends in a separator. -/
def IsDirectory (s : String) : Prop := s = "" ∨ ∃ above, s = above ++ "/" ∨ s = above ++ "\\"

theorem isDirectory_iff {s : String} : IsDirectory s ↔ EndsInSeparator s.toList := by
  constructor
  · rintro (rfl | ⟨above, rfl | rfl⟩)
    · exact .inl rfl
    · exact .inr ⟨above.toList, '/', by simp, by decide⟩
    · exact .inr ⟨above.toList, '\\', by simp, by decide⟩
  · rintro (hnil | ⟨above, c, hs, hc⟩)
    · exact .inl (String.toList_inj.mp (by simpa using hnil))
    · refine .inr ⟨String.ofList above, ?_⟩
      rcases (by simpa [isSeparator] using hc : c = '/' ∨ c = '\\') with rfl | rfl
      · exact .inl (String.toList_inj.mp (by simpa using hs))
      · exact .inr (String.toList_inj.mp (by simpa using hs))

/-- The parts of a name: directories, the numerals of both bounds and the ending of a file. -/
structure NameParts where
  directory : String
  first : String
  last : String
  ending : String

namespace NameParts

variable {parts more : NameParts} {a b c d : Nat}

def name (parts : NameParts) : String :=
  parts.directory ++ parts.first ++ "-" ++ parts.last ++ parts.ending

/-- The parts stand for two numbers, in whatever order these are. -/
structure Spell (parts : NameParts) (first last : Nat) : Prop where
  directory : IsDirectory parts.directory
  first : Decimal.Numeral parts.first.toList first
  last : Decimal.Numeral parts.last.toList last
  ending : IsEnding parts.ending

/-- The numerals and the dash. -/
def bare (parts : NameParts) : List Char := parts.first.toList ++ '-' :: parts.last.toList

theorem toList_name (parts : NameParts) :
    parts.name.toList = parts.directory.toList ++ (parts.bare ++ parts.ending.toList) := by
  simp [name, bare]

theorem Spell.not_mem_bare (h : parts.Spell a b) {c : Char} (hd : c.isDigit = false)
    (hp : c ≠ '+') (hm : c ≠ '-') : c ∉ parts.bare := by
  simp [bare, h.first.not_mem hd hp, h.last.not_mem hd hp, hm]

theorem Spell.not_separator (h : parts.Spell a b) :
    ∀ c ∈ parts.bare ++ parts.ending.toList, isSeparator c = false := by
  intro c hmem
  rw [isSeparator, Bool.or_eq_false_iff, decide_eq_false_iff_not, decide_eq_false_iff_not]
  have hending : '/' ∉ parts.ending.toList ∧ '\\' ∉ parts.ending.toList := by
    rcases h.ending with he | he | he <;> rw [he] <;> decide
  rcases List.mem_append.mp hmem with hmem | hmem
  · constructor
    · rintro rfl
      exact h.not_mem_bare (by decide) (by decide) (by decide) hmem
    · rintro rfl
      exact h.not_mem_bare (by decide) (by decide) (by decide) hmem
  · constructor
    · rintro rfl
      exact hending.1 hmem
    · rintro rfl
      exact hending.2 hmem

theorem Spell.baseName_eq (h : parts.Spell a b) :
    baseName parts.name.toList = parts.bare ++ parts.ending.toList := by
  rw [toList_name, baseName_append (isDirectory_iff.mp h.directory) h.not_separator]

theorem Spell.stripExtension_eq (h : parts.Spell a b) :
    stripExtension (baseName parts.name.toList) = parts.bare := by
  rw [h.baseName_eq, stripExtension_append h.ending
    (h.not_mem_bare (by decide) (by decide) (by decide))]

/-- A name has one set of parts, and stands for two numbers only. -/
theorem Spell.unique (h : parts.Spell a b) (h' : more.Spell c d) (hname : parts.name = more.name) :
    parts = more ∧ a = c ∧ b = d := by
  have hbase : parts.bare ++ parts.ending.toList = more.bare ++ more.ending.toList := by
    rw [← h.baseName_eq, ← h'.baseName_eq, hname]
  have hbare : parts.bare = more.bare := by
    rw [← h.stripExtension_eq, ← h'.stripExtension_eq, hname]
  have hdirectory : parts.directory = more.directory := by
    have htext := congrArg String.toList hname
    rw [toList_name, toList_name, hbase] at htext
    exact String.toList_inj.mp (List.append_cancel_right htext)
  have hending : parts.ending = more.ending := by
    rw [hbare] at hbase
    exact String.toList_inj.mp (List.append_cancel_left hbase)
  have hdash : '-' ∉ parts.first.toList := h.first.not_mem (by decide) (by decide)
  have hdash' : '-' ∉ more.first.toList := h'.first.not_mem (by decide) (by decide)
  have hfirst : parts.first = more.first := by
    have htake := congrArg (List.takeWhile (· ≠ '-')) hbare
    rw [bare, bare, (cut_dash hdash).1, (cut_dash hdash').1] at htake
    exact String.toList_inj.mp htake
  have hlast : parts.last = more.last := by
    have hdrop := congrArg (List.dropWhile (· ≠ '-')) hbare
    rw [bare, bare, (cut_dash hdash).2, (cut_dash hdash').2] at hdrop
    exact String.toList_inj.mp (List.cons.inj hdrop).2
  refine ⟨?_, ?_, ?_⟩
  · rw [mk.injEq]
    exact ⟨hdirectory, hfirst, hlast, hending⟩
  · exact (hfirst ▸ h.first).unique h'.first
  · exact (hlast ▸ h.last).unique h'.last

end NameParts

/-- A name is read as the range between its numbers, if they are bounds of one. -/
theorem parse?_name {parts : NameParts} {a b : Nat} (h : parts.Spell a b) :
    parse? parts.name =
      if a ≤ b ∧ b < UInt64.size then some ⟨UInt64.ofNat a, UInt64.ofNat b⟩ else none := by
  unfold parse? parseChars?
  rw [h.stripExtension_eq]
  exact parseBare?_append h.first h.last

/-- The text is a name of the range. -/
def IsName (s : String) (r : BlockRange) : Prop :=
  r.first ≤ r.last ∧
    ∃ parts : NameParts, parts.name = s ∧ parts.Spell r.first.toNat r.last.toNat

theorem isName_of_parse? {s : String} {r : BlockRange} (h : parse? s = some r) : IsName s r := by
  obtain ⟨directory, hdirectory, hseparator⟩ := exists_directory s.toList
  obtain ⟨ending, hending, hbase⟩ := exists_ending (baseName s.toList)
  obtain ⟨first, last, hbare, hfirst, hlast, hordered⟩ := exists_numerals_of_parseBare? h
  refine ⟨hordered, ⟨String.ofList directory, String.ofList first, String.ofList last, ending⟩,
    ?_, ?_, ?_, ?_, hending⟩
  · apply String.toList_inj.mp
    rw [hdirectory, hbase, hbare]
    simp [NameParts.name]
  · exact isDirectory_iff.mpr (by simpa using hseparator)
  · simpa using hfirst
  · simpa using hlast

theorem parse?_eq_some_iff {s : String} {r : BlockRange} : parse? s = some r ↔ IsName s r := by
  refine ⟨isName_of_parse?, ?_⟩
  rintro ⟨hordered, parts, rfl, hspell⟩
  rw [parse?_name hspell, if_pos ⟨UInt64.le_iff_toNat_le.mp hordered, r.last.toNat_lt⟩,
    UInt64.ofNat_toNat, UInt64.ofNat_toNat]

theorem ofName_eq_ok {name : String} {range : BlockRange} :
    ofName name = .ok range ↔ parse? name = some range := by
  unfold ofName
  cases parse? name <;> simp

theorem ofName_eq_error {name : String} :
    ofName name = .error (.invalidBlockRange name) ↔ parse? name = none := by
  unfold ofName
  cases parse? name <;> simp

/-- A range is read from exactly its names, a name has one set of parts, and whatever is the name of
no range is refused and told as it stands. -/
theorem ofName_reads_names (s : String) :
    (∀ r, ofName s = .ok r ↔ IsName s r) ∧
    (∀ (parts more : NameParts) (a b c d : Nat), parts.name = s → parts.Spell a b →
      more.name = s → more.Spell c d → parts = more ∧ a = c ∧ b = d) ∧
    (ofName s = .error (.invalidBlockRange s) ↔ ∀ r, ¬ IsName s r) := by
  refine ⟨fun r => ofName_eq_ok.trans parse?_eq_some_iff, ?_, ?_⟩
  · intro parts more a b c d hname hspell hname' hspell'
    exact hspell.unique hspell' (hname.trans hname'.symm)
  · rw [ofName_eq_error, Option.eq_none_iff_forall_ne_some]
    exact forall_congr' fun r => not_congr parse?_eq_some_iff

end AppearanceIndex.BlockRange
