import AppearanceIndex.Json.Record
import AppearanceIndex.Proofs.Text.Numeral

/-!
# Reading the JSON that is written

Texts between quotes, decimal numbers and objects of such values read back as the values that they
were written for. A number is read as far as its digits go, so it needs a text behind it that does
not go on with the number (`Json.Ends`), which the commas and brackets of arrays and objects are.
-/

namespace AppearanceIndex

theorem Decimal.head?_digits {n : Nat} (h : 0 < n) : (digits n).head? ≠ some '0' := by
  induction n using Nat.strongRecOn with
  | ind n ih =>
    rw [digits]
    split
    · next hlt =>
      have hdigit : ∀ n < 10, 0 < n → digit n ≠ '0' := by decide
      simpa using hdigit n hlt h
    · next hge =>
      rw [List.head?_append, List.head?_eq_some_head (digits_ne_nil _), Option.some_or,
        ← List.head?_eq_some_head (digits_ne_nil _)]
      exact ih (n / 10) (by omega) (by omega)

/-- Only the text of zero begins with a zero. -/
theorem Decimal.digits_ne_zero_cons (n : Nat) (c : Char) (cs : List Char) :
    digits n ≠ '0' :: c :: cs := by
  intro heq
  rcases Nat.eq_zero_or_pos n with rfl | hpos
  · rw [digits] at heq
    cases heq
  · exact head?_digits hpos (by rw [heq]; rfl)

namespace Json

/-! ## Strings -/

/-- A character that stands for itself between quotes. -/
def Plain (c : Char) : Prop := c ≠ '"' ∧ c ≠ '\\' ∧ ¬ c < ' '

instance (c : Char) : Decidable (Plain c) := inferInstanceAs (Decidable (_ ∧ _))

theorem readParts_plain {cs : List Char} (h : ∀ c ∈ cs, Plain c) (rest : List Char) :
    readParts (cs ++ '"' :: rest) = some (cs.map .character, rest) := by
  induction cs with
  | nil => rfl
  | cons c cs ih =>
    rw [List.forall_mem_cons] at h
    obtain ⟨⟨hquote, hslash, hcontrol⟩, hcs⟩ := h
    rw [List.cons_append, readParts, if_neg hcontrol, ih hcs]
    · rfl
    all_goals grind

theorem joinParts_characters (cs : List Char) : joinParts (cs.map .character) = some cs := by
  induction cs with
  | nil => rfl
  | cons c cs ih =>
    rw [List.map_cons, joinParts, ih]
    rfl

theorem readString_plain {cs : List Char} (h : ∀ c ∈ cs, Plain c) (rest : List Char) :
    readString (cs ++ '"' :: rest) = some (some cs, rest) := by
  rw [readString, readParts_plain h, Option.map_some]
  simp only [joinParts_characters]

/-! ## Numbers -/

/-- A text in front of which a number ends. -/
def Ends (rest : List Char) : Prop :=
  ∀ c, rest.head? = some c → c = ',' ∨ c = ']' ∨ c = '\x7d'

theorem takeWhile_digits {ds rest : List Char} (h : ∀ c ∈ ds, c.isDigit = true) (hr : Ends rest) :
    (ds ++ rest).takeWhile Char.isDigit = ds ∧ (ds ++ rest).dropWhile Char.isDigit = rest := by
  rw [List.takeWhile_append_of_pos h, List.dropWhile_append_of_pos h]
  cases rest with
  | nil => simp
  | cons c rest =>
    have hc : ¬ c.isDigit = true := by
      rcases hr c rfl with rfl | rfl | rfl <;> decide
    rw [List.takeWhile_cons_of_neg hc, List.dropWhile_cons_of_neg hc, List.append_nil]
    exact ⟨rfl, rfl⟩

theorem readWhole_digits (n : Nat) {rest : List Char} (hr : Ends rest) :
    readWhole (Decimal.digits n ++ rest) = some (Decimal.digits n, rest) := by
  obtain ⟨htake, hdrop⟩ := takeWhile_digits (Decimal.spells_digits n).digits hr
  have hread : readDigits (Decimal.digits n ++ rest) = some (Decimal.digits n, rest) := by
    rw [readDigits, htake, hdrop]
    split
    · next hnil => exact absurd hnil (Decimal.digits_ne_nil n)
    · rfl
  rw [readWhole, hread]
  split
  · next c cs _ heq =>
    rw [Option.some.injEq, Prod.mk.injEq] at heq
    exact absurd heq.1 (Decimal.digits_ne_zero_cons n c cs)
  · rfl

theorem readFraction_of_ends {rest : List Char} (hr : Ends rest) :
    readFraction rest = some ([], rest) := by
  unfold readFraction
  split
  · exact absurd (hr '.' rfl) (by decide)
  · rfl

theorem readExponent_of_ends {rest : List Char} (hr : Ends rest) :
    readExponent rest = some ([], rest) := by
  cases rest with
  | nil => rfl
  | cons c rest =>
    have hc : ¬ (c = 'e' ∨ c = 'E') := by
      rcases hr c rfl with rfl | rfl | rfl <;> decide
    unfold readExponent
    exact if_neg hc

theorem readUnsigned_digits (n : Nat) {rest : List Char} (hr : Ends rest) :
    readUnsigned (Decimal.digits n ++ rest) = some (Decimal.digits n, rest) := by
  simp [readUnsigned, readWhole_digits n hr, readFraction_of_ends hr, readExponent_of_ends hr]

/-! ## Values -/

/-- A text is read as a value, wherever it stands. -/
def Reads (text : List Char) (value : Json) : Prop :=
  ∀ steps rest, Ends rest → read (steps + 1) (text ++ rest) = some (value, rest)

theorem reads_quoted {cs : List Char} (h : ∀ c ∈ cs, Plain c) :
    Reads (quoted cs) (.string (some cs)) := by
  intro steps rest _
  have hblanks : skipBlanks (quoted cs ++ rest) = '"' :: (cs ++ '"' :: rest) := by
    simp [quoted, skipBlanks, isBlank]
  rw [read, hblanks]
  simp only [readString_plain h, Option.map_some]

/-- What begins with a digit is a number. -/
theorem read_digit {c : Char} (h : c.isDigit = true) (steps : Nat) (cs : List Char) :
    read (steps + 1) (c :: cs) =
      (readUnsigned (c :: cs)).map fun (literal, rest) => (number literal, rest) := by
  have hblanks : skipBlanks (c :: cs) = c :: cs := by
    have hc : ¬ isBlank c = true := by
      intro hblank
      simp only [isBlank, Bool.or_eq_true, decide_eq_true_eq] at hblank
      rcases hblank with ((rfl | rfl) | rfl) | rfl <;> cases h
    exact List.dropWhile_cons_of_neg hc
  have hsign : readNumber (c :: cs) = readUnsigned (c :: cs) := by
    unfold readNumber
    split
    · next heq =>
      cases heq
      cases h
    · rfl
  rw [read, hblanks]
  -- no digit begins a string, an array, an object or a word
  split
  all_goals first
    | exact congrArg _ hsign
    | (next heq => cases heq; cases h)

theorem reads_digits (n : Nat) : Reads (Decimal.digits n) (.number (Decimal.digits n)) := by
  intro steps rest hr
  have hread := readUnsigned_digits n hr
  cases hdigits : Decimal.digits n with
  | nil => exact absurd hdigits (Decimal.digits_ne_nil n)
  | cons c cs =>
    have hc := (Decimal.spells_digits n).digits c (hdigits ▸ List.mem_cons_self)
    rw [hdigits] at hread
    rw [List.cons_append] at hread ⊢
    rw [read_digit hc, hread]
    rfl

theorem parse?_of_reads {text : List Char} {value : Json} (h : Reads text value) :
    parse? text = some value := by
  have hend : Ends [] := fun c hc => nomatch hc
  have hread := h (2 * text.length + 1) [] hend
  rw [List.append_nil] at hread
  rw [parse?, hread]
  rfl

/-! ## Objects -/

/-- A field of an object: its name, its text and the value that the text is read as. -/
structure Field where
  name : String
  text : List Char
  value : Json

namespace Field

/-- The name needs no escape, and the text is read as the value. -/
def Written (f : Field) : Prop := (∀ c ∈ f.name.toList, Plain c) ∧ Reads f.text f.value

def line (f : Field) : List Char := quoted f.name.toList ++ ':' :: f.text

def entry (f : Field) : Option (List Char) × Json := (some f.name.toList, f.value)

/-- A field is read, and then what its separator announces. -/
theorem readMembers_line {f : Field} (h : f.Written) (steps : Nat) {separator : Char}
    (rest : List Char) (hs : separator = ',' ∨ separator = '\x7d') :
    readMembers (steps + 2) (f.line ++ separator :: rest) =
      if separator = ',' then
        (readMembers (steps + 1) rest).map fun (members, rest) => (f.entry :: members, rest)
      else some ([f.entry], rest) := by
  have hends : Ends (separator :: rest) := by
    intro c hc
    cases hc
    rcases hs with rfl | rfl
    · exact .inl rfl
    · exact .inr (.inr rfl)
  have hline : skipBlanks (f.line ++ separator :: rest) =
      '"' :: (f.name.toList ++ '"' :: ':' :: (f.text ++ separator :: rest)) := by
    simp [line, quoted, skipBlanks, isBlank]
  have hcolon (cs : List Char) : skipBlanks (':' :: cs) = ':' :: cs := rfl
  have hvalue := h.2 steps _ hends
  rw [readMembers, hline]
  simp only [readString_plain h.1, hcolon, hvalue, Option.bind_eq_bind, Option.bind_some]
  rcases hs with rfl | rfl
  · rfl
  · rfl

/-- Fields are read one by one; a step is needed for each, and one for the last value. -/
theorem readMembers_lines {fields : List Field} (hne : fields ≠ [])
    (h : ∀ f ∈ fields, f.Written) (steps : Nat) (rest : List Char) :
    readMembers (fields.length + 1 + steps) (separated (fields.map line) ++ '\x7d' :: rest) =
      some (fields.map entry, rest) := by
  induction fields with
  | nil => exact absurd rfl hne
  | cons f fields ih =>
    rw [List.forall_mem_cons] at h
    cases fields with
    | nil =>
      have hsteps : [f].length + 1 + steps = steps + 2 := by simp; omega
      rw [hsteps]
      exact readMembers_line h.1 steps rest (.inr rfl)
    | cons next fields =>
      have hsteps : (f :: next :: fields).length + 1 + steps =
          (next :: fields).length + steps + 2 := by simp only [List.length_cons]; omega
      have hrest := ih (List.cons_ne_nil _ _) h.2
      have htext : separated ((f :: next :: fields).map line) ++ '\x7d' :: rest =
          f.line ++ ',' :: (separated ((next :: fields).map line) ++ '\x7d' :: rest) := by
        simp [separated]
      rw [hsteps, htext, readMembers_line h.1 _ _ (.inl rfl), if_pos rfl,
        show (next :: fields).length + steps + 1 = (next :: fields).length + 1 + steps by omega,
        hrest]
      rfl

end Field

theorem length_le_length_separated {texts : List (List Char)} (h : ∀ text ∈ texts, text ≠ []) :
    texts.length ≤ (separated texts).length := by
  induction texts with
  | nil => exact Nat.zero_le _
  | cons text texts ih =>
    rw [List.forall_mem_cons] at h
    have hpos := List.length_pos_iff.mpr h.1
    cases texts with
    | nil => exact hpos
    | cons next texts =>
      have hrest := ih h.2
      simp only [separated, List.length_append, List.length_cons] at hrest ⊢
      omega

/-- Fields begin with a quote. -/
theorem exists_separated_lines {fields : List Field} (hne : fields ≠ []) :
    ∃ cs, separated (fields.map Field.line) = '"' :: cs := by
  match fields, hne with
  | [f], _ => exact ⟨_, rfl⟩
  | f :: next :: fields, _ => exact ⟨_, rfl⟩

/-- What begins with a brace and a quote is an object with members. -/
theorem read_brace (steps : Nat) (cs : List Char) :
    read (steps + 1) ('\x7b' :: '"' :: cs) =
      (readMembers steps ('"' :: cs)).map fun (members, rest) => (object members, rest) := by
  rw [read]
  rfl

/-- An object of written fields is read as the object of their values, in their order. -/
theorem parse?_objectText {fields : List Field} (hne : fields ≠ [])
    (h : ∀ f ∈ fields, f.Written) :
    parse? (objectText (fields.map fun f => (f.name, f.text))) =
      some (.object (fields.map Field.entry)) := by
  have htext : objectText (fields.map fun f => (f.name, f.text)) =
      '\x7b' :: (separated (fields.map Field.line) ++ ['\x7d']) := by
    rw [objectText, List.map_map]
    rfl
  have hlen : fields.length ≤ (separated (fields.map Field.line)).length := by
    have hlines : ∀ line ∈ fields.map Field.line, line ≠ [] := by
      intro line hline
      obtain ⟨f, -, rfl⟩ := List.mem_map.mp hline
      exact List.cons_ne_nil _ _
    simpa using length_le_length_separated hlines
  -- a text is long enough that a step for each of its fields is left
  obtain ⟨cs, hcs⟩ := exists_separated_lines hne
  have hmembers := fun steps => Field.readMembers_lines hne h steps []
  rw [htext]
  generalize separated (fields.map Field.line) = lines at hlen hcs hmembers
  subst hcs
  obtain ⟨more, hmore⟩ : ∃ more, 2 * ('\x7b' :: ('"' :: cs ++ ['\x7d'])).length + 2 =
      fields.length + 1 + more + 1 := by
    refine ⟨2 * ('\x7b' :: ('"' :: cs ++ ['\x7d'])).length - fields.length, ?_⟩
    simp only [List.length_cons, List.length_append] at hlen ⊢
    omega
  rw [parse?, hmore, List.cons_append, read_brace, ← List.cons_append, hmembers more]
  rfl

end Json

end AppearanceIndex
