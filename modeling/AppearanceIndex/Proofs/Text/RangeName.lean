import AppearanceIndex.Proofs.Text.RangeGrammar

/-!
# Names of ranges

A range is read back from its text and from the stem under which it is stored, in whatever
directory and with whatever ending of a file (`BlockRange.parse?_printed`). Stems are made of digits
and one dash, so they are whole names: they hold no dot and no separator.
-/

namespace AppearanceIndex

namespace BlockRange

theorem isDigit_or_dash_of_mem_stem {r : BlockRange} {c : Char} (h : c ∈ r.fileStem.toList) :
    Decimal.IsDigit c ∨ c = '-' := by
  have hstem : r.fileStem.toList = r.stemChars := by simp [fileStem]
  rw [hstem, stemChars] at h
  rcases List.mem_append.mp h with h | h
  · exact .inl (Decimal.isDigit_of_mem_paddedDigits h)
  · rcases List.mem_cons.mp h with h | h
    · exact .inr h
    · exact .inl (Decimal.isDigit_of_mem_paddedDigits h)

/-- A stem holds no character that is neither a digit nor a dash. -/
theorem not_mem_stem (r : BlockRange) {c : Char} (h : ¬ Decimal.IsDigit c) (hd : c ≠ '-') :
    c ∉ r.fileStem.toList :=
  fun hmem => (isDigit_or_dash_of_mem_stem hmem).elim h hd

theorem fileStem_ne_empty (r : BlockRange) : r.fileStem ≠ "" := by
  intro h
  have hnil : r.stemChars = [] := by
    have hlist := congrArg String.toList h
    simpa [fileStem] using hlist
  rw [stemChars] at hnil
  exact absurd (List.append_eq_nil_iff.mp hnil).2 (List.cons_ne_nil _ _)

/-! ## Reading what was printed -/

/-- The parts of a name whose numbers are padded to a width. -/
def NameParts.padded (width : Nat) (r : BlockRange) (directory ending : String) : NameParts :=
  ⟨directory, String.ofList (Decimal.paddedDigits width r.first.toNat),
    String.ofList (Decimal.paddedDigits width r.last.toNat), ending⟩

theorem NameParts.spell_padded {directory ending : String} (hd : IsDirectory directory)
    (he : IsEnding ending) (width : Nat) (r : BlockRange) :
    (padded width r directory ending).Spell r.first.toNat r.last.toNat where
  directory := hd
  first := by simpa [padded] using Decimal.numeral_paddedDigits width r.first.toNat
  last := by simpa [padded] using Decimal.numeral_paddedDigits width r.last.toNat
  ending := he

theorem NameParts.name_text (r : BlockRange) (directory ending : String) :
    (padded 0 r directory ending).name = directory ++ r.text ++ ending := by
  apply String.toList_inj.mp
  simp [name, padded, text, chars, Decimal.paddedDigits]

theorem NameParts.name_fileStem (r : BlockRange) (directory ending : String) :
    (padded 9 r directory ending).name = directory ++ r.fileStem ++ ending := by
  apply String.toList_inj.mp
  simp [name, padded, fileStem, stemChars]

/-- A printed range has the parts of a name wherever it stands. -/
theorem exists_parts_of_printed {r : BlockRange} {directory ending printed : String}
    (hd : IsDirectory directory) (he : IsEnding ending)
    (hp : printed = r.text ∨ printed = r.fileStem) :
    ∃ parts : NameParts, parts.name = directory ++ printed ++ ending ∧
      parts.Spell r.first.toNat r.last.toNat := by
  rcases hp with rfl | rfl
  · exact ⟨_, NameParts.name_text r directory ending, NameParts.spell_padded hd he 0 r⟩
  · exact ⟨_, NameParts.name_fileStem r directory ending, NameParts.spell_padded hd he 9 r⟩

theorem parse?_printed {r : BlockRange} {directory ending printed : String}
    (hd : IsDirectory directory) (he : IsEnding ending)
    (hp : printed = r.text ∨ printed = r.fileStem) :
    parse? (directory ++ printed ++ ending) = if r.first ≤ r.last then some r else none := by
  obtain ⟨parts, hname, hspell⟩ := exists_parts_of_printed hd he hp
  have hbounds : r.first.toNat ≤ r.last.toNat ∧ r.last.toNat < UInt64.size ↔ r.first ≤ r.last := by
    rw [UInt64.le_iff_toNat_le]
    exact and_iff_left r.last.toNat_lt
  rw [← hname, parse?_name hspell, UInt64.ofNat_toNat, UInt64.ofNat_toNat]
  exact if_congr hbounds rfl rfl

/-- A stem is read back as its range. -/
theorem parse?_fileStem {r : BlockRange} (h : r.first ≤ r.last) : parse? r.fileStem = some r := by
  have hread : parse? ("" ++ r.fileStem ++ "") = if r.first ≤ r.last then some r else none :=
    parse?_printed (.inl rfl) (.inl rfl) (.inr rfl)
  rw [if_pos h] at hread
  simpa using hread

/-- Whatever a name looks like, the range that it stands for begins no later than it ends. -/
theorem first_le_last_of_parse? {s : String} {r : BlockRange} (h : parse? s = some r) :
    r.first ≤ r.last := (isName_of_parse? h).1

/-- Ranges that are stored under the same stem are the same. -/
theorem fileStem_inj {r s : BlockRange} (hr : r.first ≤ r.last) (hs : s.first ≤ s.last)
    (h : r.fileStem = s.fileStem) : r = s := by
  have hparse := parse?_fileStem hr
  rw [h, parse?_fileStem hs] at hparse
  exact (Option.some.inj hparse).symm

end BlockRange

end AppearanceIndex
