import AppearanceIndex.Json.Record
import AppearanceIndex.Proofs.Text.HexText
import AppearanceIndex.Proofs.Text.RangeName
import AppearanceIndex.Text.Utf8

/-!
# Text without line feeds

The byte of a line feed occurs in the UTF-8 form of a text only where the text has a line feed. An
appearance is written as one line: numbers, addresses and the names of the members have none. Texts
of one line each, with a line feed behind each, are found again between the line feeds.
-/

namespace AppearanceIndex

namespace Utf8

theorem eq_of_mem_utf8EncodeChar {c : Char} (h : 10 ∈ String.utf8EncodeChar c) : c = '\n' := by
  have hbyte : ∀ n : Nat, n < 256 → UInt8.ofNat n = 10 → n = 10 := by
    intro n hn heq
    have hnat := congrArg UInt8.toNat heq
    rwa [UInt8.toNat_ofNat_of_lt' hn] at hnat
  unfold String.utf8EncodeChar at h
  simp only at h
  split at h
  · have hten := hbyte c.val.toNat (by omega) (List.mem_singleton.mp h).symm
    exact Char.ext (UInt32.toNat_inj.mp hten)
  · -- every byte of a longer form is at least 128
    split at h
    · simp only [List.mem_cons, List.not_mem_nil, or_false] at h
      rcases h with hb | hb <;>
        · have := hbyte _ (by omega) hb.symm
          omega
    · split at h
      · simp only [List.mem_cons, List.not_mem_nil, or_false] at h
        rcases h with hb | hb | hb <;>
          · have := hbyte _ (by omega) hb.symm
            omega
      · simp only [List.mem_cons, List.not_mem_nil, or_false] at h
        rcases h with hb | hb | hb | hb <;>
          · have := hbyte _ (by omega) hb.symm
            omega

theorem not_mem_encode {cs : List Char} (h : '\n' ∉ cs) : 10 ∉ encode cs := by
  intro hmem
  obtain ⟨c, hc, hb⟩ := List.mem_flatMap.mp hmem
  rw [eq_of_mem_utf8EncodeChar hb] at hc
  exact h hc

@[simp] theorem encode_append (cs ds : List Char) : encode (cs ++ ds) = encode cs ++ encode ds :=
  List.flatMap_append

end Utf8

theorem Decimal.newline_not_mem_digits (n : Nat) : '\n' ∉ digits n :=
  fun h => absurd (isDigit_of_mem_digits h) (by decide)

theorem Hex.newline_not_mem_encode (bs : Bytes) : '\n' ∉ encode bs :=
  fun h => absurd ((spells_encode bs).isDigit _ h) (by decide)

theorem Address.newline_not_mem_jsonText (a : Address) : '\n' ∉ a.jsonText := by
  have hhex := Hex.newline_not_mem_encode a.toBytes
  simp [jsonText, Json.quoted, chars, hhex]

theorem Json.newline_not_mem_separated {texts : List (List Char)}
    (h : ∀ text ∈ texts, '\n' ∉ text) : '\n' ∉ separated texts := by
  induction texts with
  | nil => simp [separated]
  | cons text texts ih =>
    rw [List.forall_mem_cons] at h
    cases texts with
    | nil => exact h.1
    | cons next texts =>
      have hrest := ih h.2
      simp [separated, h.1, hrest]

/-- An object without line feeds in its parts is one line. -/
theorem Json.newline_not_mem_objectText {members : List (String × List Char)}
    (h : ∀ member ∈ members, '\n' ∉ member.1.toList ∧ '\n' ∉ member.2) :
    '\n' ∉ objectText members := by
  unfold objectText
  simp only [List.mem_cons, List.mem_append, List.not_mem_nil, or_false, not_or]
  refine ⟨⟨by decide, newline_not_mem_separated fun text htext => ?_⟩, by decide⟩
  obtain ⟨member, hmember, rfl⟩ := List.mem_map.mp htext
  obtain ⟨hname, hvalue⟩ := h member hmember
  simp [quoted, hname, hvalue]

theorem splitOn_lines {texts : List (List Char)} (h : ∀ text ∈ texts, '\n' ∉ text) :
    (texts.flatMap (· ++ ['\n'])).splitOn '\n' = texts ++ [[]] := by
  induction texts with
  | nil => rfl
  | cons text texts ih =>
    rw [List.forall_mem_cons] at h
    have hnone : ∀ c ∈ text, (c == '\n') = false := by
      intro c hc
      rw [beq_eq_false_iff_ne]
      rintro rfl
      exact h.1 hc
    have hsplit := List.splitOnP_append_cons_of_forall_mem hnone '\n' (by decide)
      (texts.flatMap (· ++ ['\n']))
    rw [List.flatMap_cons, List.append_assoc, List.singleton_append]
    exact hsplit.trans (congrArg (text :: ·) (ih h.2))

theorem DecodedAppearance.newline_not_mem_rowText (d : DecodedAppearance) (range : BlockRange) :
    '\n' ∉ d.rowText range := by
  refine Json.newline_not_mem_objectText fun member hmember => ?_
  simp only [jsonMembers, Appearance.jsonMembers, List.cons_append, List.nil_append,
    List.mem_cons, List.not_mem_nil, or_false] at hmember
  rcases hmember with rfl | rfl | rfl | rfl | rfl
  · exact ⟨by simp, d.address.newline_not_mem_jsonText⟩
  all_goals exact ⟨by simp, Decimal.newline_not_mem_digits _⟩

end AppearanceIndex
