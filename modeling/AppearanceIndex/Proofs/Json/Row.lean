import AppearanceIndex.Proofs.Text.AddressText
import AppearanceIndex.Text.Utf8

/-!
# Reading the rows of the appearance file

A row has the fields of an appearance with its address and those of its range. It reads back as the
appearance, because a reader of appearances looks for its own fields only, and the bounds are found
under their names.
-/

namespace AppearanceIndex

/-! ## Bytes as text -/

/-- Text that was written is read back. -/
theorem Utf8.decode?_encode (cs : List Char) : decode? (encode cs) = some (String.ofList cs) := by
  have hvalid : (encode cs).toByteArray.IsValidUTF8 :=
    ByteArray.isValidUTF8_utf8Encode (l := cs)
  unfold decode? String.fromUTF8?
  rw [dif_pos hvalid]
  rfl

/-! ## Fields -/

namespace Json

section

variable {fields : List Field} (hnames : (fields.map Field.name).Nodup)
include hnames

theorem filter_entry {f : Field} (hf : f ∈ fields) :
    (fields.map Field.entry).filter (·.1 = some f.name.toList) = [f.entry] := by
  have hsame (g : Field) : g.entry.1 = some f.name.toList ↔ g.name = f.name := by
    rw [Field.entry, Option.some.injEq, String.toList_inj]
  induction fields with
  | nil => cases hf
  | cons g fields ih =>
    rw [List.map_cons, List.nodup_cons] at hnames
    obtain ⟨hg, hrest⟩ := hnames
    rw [List.map_cons, List.filter_cons]
    rcases List.mem_cons.mp hf with rfl | hf
    · have hnone : (fields.map Field.entry).filter (·.1 = some f.name.toList) = [] := by
        rw [List.filter_eq_nil_iff]
        intro member hmember
        obtain ⟨h, hh, rfl⟩ := List.mem_map.mp hmember
        rw [decide_eq_true_eq, hsame]
        exact fun heq => hg (heq ▸ List.mem_map_of_mem hh)
      rw [if_pos (by simp [hsame]), hnone]
    · have hne : ¬ g.name = f.name := fun heq => hg (heq ▸ List.mem_map_of_mem hf)
      rw [if_neg (by simpa [hsame] using hne)]
      exact ih hrest hf

theorem member?_entry {f : Field} (hf : f ∈ fields) :
    member? f.name (fields.map Field.entry) = some f.value := by
  rw [member?, filter_entry hnames hf]
  rfl

/-- A reader finds the fields that it looks for, whatever other fields there are. -/
theorem fields?_object (wanted : List Field) (h : ∀ f ∈ wanted, f ∈ fields) :
    fields? (wanted.map Field.name) (.object (fields.map Field.entry)) =
      some (wanted.map Field.value) := by
  rw [fields?, if_pos (by simp [Field.entry])]
  induction wanted with
  | nil => rfl
  | cons f wanted ih =>
    rw [List.forall_mem_cons] at h
    rw [List.map_cons, List.mapM_cons, member?_entry hnames h.1, ih h.2]
    rfl

end

theorem unsigned?_digits {limit n : Nat} (h : n < limit) :
    unsigned? limit (.number (Decimal.digits n)) = some n := by
  rw [unsigned?, Decimal.value?_eq_some_iff.mpr (Decimal.spells_digits n), Option.filter_some,
    if_pos (decide_eq_true h)]

theorem word?_digits (n : UInt32) : word? (.number (Decimal.digits n.toNat)) = some n := by
  rw [word?, unsigned?_digits n.toNat_lt, Option.map_some, UInt32.ofNat_toNat]

theorem longWord?_digits (n : UInt64) : longWord? (.number (Decimal.digits n.toNat)) = some n := by
  rw [longWord?, unsigned?_digits n.toNat_lt, Option.map_some, UInt64.ofNat_toNat]

def numberField (name : String) (n : Nat) : Field :=
  ⟨name, Decimal.digits n, .number (Decimal.digits n)⟩

end Json

/-! ## Rows -/

namespace DecodedAppearance

open Json (numberField)

/-- The fields of an appearance with its address. -/
def fields (d : DecodedAppearance) : List Json.Field :=
  [⟨"address", d.address.jsonText, .string (some d.address.chars)⟩,
    numberField "blockNumber" d.appearance.block.toNat,
    numberField "transactionIndex" d.appearance.transaction.toNat]

/-- The fields that a row has besides. -/
def rangeFields (range : BlockRange) : List Json.Field :=
  [numberField "blockRangeStart" range.first.toNat, numberField "blockRangeEnd" range.last.toNat]

def rowValue (range : BlockRange) (d : DecodedAppearance) : Json :=
  .object ((d.fields ++ rangeFields range).map Json.Field.entry)

variable (range : BlockRange) (d : DecodedAppearance)

theorem nodup_fields : ((d.fields ++ rangeFields range).map Json.Field.name).Nodup := by
  have hnames : (d.fields ++ rangeFields range).map Json.Field.name =
      ["address", "blockNumber", "transactionIndex", "blockRangeStart", "blockRangeEnd"] := rfl
  rw [hnames]
  decide

theorem written_fields : ∀ f ∈ d.fields ++ rangeFields range, f.Written := by
  have hplain (name : String) (h : name.toList.all fun c => decide (Json.Plain c)) :
      ∀ c ∈ name.toList, Json.Plain c := by simpa using h
  have hnumber (name : String) (n : Nat) (h : name.toList.all fun c => decide (Json.Plain c)) :
      (numberField name n).Written := ⟨hplain name h, Json.reads_digits n⟩
  have haddress := hplain "address" (by decide)
  simp only [fields, rangeFields, List.cons_append, List.nil_append, List.forall_mem_cons]
  exact ⟨⟨haddress, d.address.reads_jsonText⟩, hnumber _ _ (by decide), hnumber _ _ (by decide),
    hnumber _ _ (by decide), hnumber _ _ (by decide), fun f hf => nomatch hf⟩

theorem parse?_rowText : Json.parse? (d.rowText range) = some (d.rowValue range) := by
  have htext : d.rowText range =
      Json.objectText ((d.fields ++ rangeFields range).map fun f => (f.name, f.text)) := rfl
  rw [htext]
  exact Json.parse?_objectText (List.cons_ne_nil _ _) (d.written_fields range)

/-- A row is read as its appearance; the fields of the range are not looked at. -/
theorem ofJson?_rowValue : ofJson? (d.rowValue range) = some d := by
  have hfields : (d.rowValue range).fields? ["address", "blockNumber", "transactionIndex"] =
      some [.string (some d.address.chars), .number (Decimal.digits d.appearance.block.toNat),
        .number (Decimal.digits d.appearance.transaction.toNat)] :=
    Json.fields?_object (d.nodup_fields range) d.fields fun _ => List.mem_append_left _
  rw [ofJson?, hfields]
  simp [Address.ofJson?_chars, Json.word?_digits]

theorem fields?_rowValue :
    (d.rowValue range).fields? ["blockRangeStart", "blockRangeEnd"] =
      some [.number (Decimal.digits range.first.toNat),
        .number (Decimal.digits range.last.toNat)] :=
  Json.fields?_object (d.nodup_fields range) (rangeFields range) fun _ => List.mem_append_right _

end DecodedAppearance

/-! ## Lines -/

/-- A line is read as an appearance with its address, and has the bounds of a range. -/
def Rows.ReadsAs (line : Bytes) (entry : BlockRange × DecodedAppearance) : Prop :=
  ∃ text value first last, Utf8.decode? line = some text ∧ Json.parse? text.toList = some value ∧
    DecodedAppearance.ofJson? value = some entry.2 ∧
    value.fields? ["blockRangeStart", "blockRangeEnd"] = some [first, last] ∧
    first.longWord? = some entry.1.first ∧ last.longWord? = some entry.1.last

/-- A row is read as what it was written for. -/
theorem Rows.readsAs_rowText (range : BlockRange) (d : DecodedAppearance) :
    ReadsAs (Utf8.encode (d.rowText range)) (range, d) := by
  refine ⟨_, _, _, _, Utf8.decode?_encode _, ?_, d.ofJson?_rowValue range,
    d.fields?_rowValue range, Json.longWord?_digits _, Json.longWord?_digits _⟩
  rw [String.toList_ofList]
  exact d.parse?_rowText range

end AppearanceIndex
