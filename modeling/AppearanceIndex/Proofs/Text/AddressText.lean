import AppearanceIndex.Error
import AppearanceIndex.Proofs.Chunk.Recode
import AppearanceIndex.Proofs.Json.Written
import AppearanceIndex.Proofs.Text.HexText
import AppearanceIndex.Proofs.Text.Positional

/-!
# The text of an address

The text of an address is `0x` and the lower-case spelling of its bytes. It reads back to the
address, as text and as a JSON string, and texts stand in the order of their addresses. Read is
just the text of some address with letters of either case. Any library that encodes and decodes
prefixed hexadecimal text as documented (`HexLibrary.Documented`) gives the same addresses and
texts.
-/

namespace AppearanceIndex

/-! ## Order -/

theorem Bytes.ofBigEndian_eq_spelledFrom (bs : Bytes) :
    ofBigEndian bs = spelledFrom 256 UInt8.toNat 0 bs := by
  have hfold (cs : Bytes) : ofLittleEndian cs = cs.foldr (fun b n => 256 * n + b.toNat) 0 := by
    induction cs with
    | nil => rfl
    | cons c cs ih => rw [ofLittleEndian, ih, List.foldr_cons, Nat.add_comm]
  rw [ofBigEndian, hfold, List.foldr_reverse]
  rfl

/-- Bytes are digits, in the order of their values. -/
theorem Bytes.digitOrder : DigitOrder 256 UInt8.toNat (fun _ => True) where
  value_lt b _ := b.toNat_lt
  lt_iff _ _ _ _ := UInt8.lt_iff_toNat_lt
  inj _ _ _ _ := UInt8.toNat_inj.mp

namespace Address

theorem ofBigEndian_toBytes (a : Address) : Bytes.ofBigEndian a.toBytes = a.toNat := by
  rw [toBytes, Bytes.ofBigEndian_bigEndian]
  exact Nat.mod_eq_of_lt a.isLt

/-- Addresses are ordered by their bytes. -/
theorem lt_iff_toBytes_lt (a b : Address) : a < b ↔ a.toBytes < b.toBytes := by
  have hlt : a < b ↔ a.toNat < b.toNat := Iff.rfl
  rw [Bytes.digitOrder.lt_iff_spelled_lt (fun _ _ => trivial) (fun _ _ => trivial)
    (by rw [length_toBytes, length_toBytes]), ← Bytes.ofBigEndian_eq_spelledFrom,
    ← Bytes.ofBigEndian_eq_spelledFrom, ofBigEndian_toBytes, ofBigEndian_toBytes, hlt]

theorem text_lt_iff (a b : Address) : a.text < b.text ↔ a.toBytes < b.toBytes := by
  rw [String.lt_iff, text, text, String.toList_ofList, String.toList_ofList, chars, chars,
    List.cons_lt_cons_iff, List.cons_lt_cons_iff, Hex.encode_lt_iff]
  simp

/-! ## Reading -/

/-- Read is `0x` and a spelling of the address's bytes. -/
theorem parseChars?_eq_some_iff {cs : List Char} {a : Address} :
    parseChars? cs = some a ↔
      ∃ digits, cs = '0' :: 'x' :: digits ∧ Hex.Spells digits a.toBytes := by
  unfold parseChars?
  split
  · next digits =>
    rw [Option.bind_eq_some_iff]
    constructor
    · rintro ⟨bs, hbs, ha⟩
      unfold ofBytes? at ha
      split at ha
      · next hlen =>
        cases ha
        exact ⟨digits, rfl, by rw [toBytes_ofBytes hlen]; exact Hex.decode?_eq_some_iff.mp hbs⟩
      · cases ha
    · rintro ⟨_, heq, hspell⟩
      cases heq
      refine ⟨a.toBytes, Hex.decode?_eq_some_iff.mpr hspell, ?_⟩
      rw [ofBytes?, if_pos a.length_toBytes, ofBytes_toBytes]
  · next hother =>
    constructor
    · exact fun h => nomatch h
    · rintro ⟨digits, rfl, -⟩
      exact absurd rfl (hother digits)

theorem ofText_eq_ok_iff {s : String} {a : Address} :
    ofText s = .ok a ↔ ∃ digits, s.toList = '0' :: 'x' :: digits ∧ Hex.Spells digits a.toBytes := by
  rw [← parseChars?_eq_some_iff, ← parse?]
  unfold ofText
  cases parse? s with
  | none => simp
  | some b => simp

theorem spells_text (a : Address) :
    a.text.toList = '0' :: 'x' :: Hex.encode a.toBytes ∧
      Hex.Spells (Hex.encode a.toBytes) a.toBytes :=
  ⟨String.toList_ofList, Hex.spells_encode a.toBytes⟩

theorem ofText_text (a : Address) : ofText a.text = .ok a :=
  ofText_eq_ok_iff.mpr ⟨_, a.spells_text⟩

/-- Forty digits are some address. -/
theorem exists_ofText_iff (s : String) :
    (∃ a, ofText s = .ok a) ↔ ∃ digits, s.toList = '0' :: 'x' :: digits ∧ digits.length = 40 ∧
      ∀ c ∈ digits, Hex.IsDigit c := by
  constructor
  · rintro ⟨a, h⟩
    obtain ⟨digits, hs, hspell⟩ := ofText_eq_ok_iff.mp h
    refine ⟨digits, hs, ?_, hspell.isDigit⟩
    rw [hspell.length_eq, length_toBytes]
    rfl
  · rintro ⟨digits, hs, hlen, hdigits⟩
    obtain ⟨bs, hbs, hspell⟩ := Hex.exists_spells width hlen hdigits
    exact ⟨ofBytes bs, ofText_eq_ok_iff.mpr ⟨digits, hs, by rwa [toBytes_ofBytes hbs]⟩⟩

/-! ## JSON -/

theorem plain_chars (a : Address) : ∀ c ∈ a.chars, Json.Plain c := by
  have hdigit (c : Char) (h : Hex.IsDigit c) : Json.Plain c := by
    refine Hex.of_ascii (fun c => Hex.IsDigit c → Json.Plain c) ?_ (Hex.lt_ascii_of_isDigit h) h
    decide +kernel
  rw [chars, List.forall_mem_cons, List.forall_mem_cons]
  exact ⟨by decide, by decide, fun c hc => hdigit c ((Hex.spells_encode _).isDigit c hc)⟩

theorem reads_jsonText (a : Address) : Json.Reads a.jsonText (.string (some a.chars)) :=
  Json.reads_quoted a.plain_chars

theorem ofJson?_chars (a : Address) : ofJson? (.string (some a.chars)) = some a :=
  parseChars?_eq_some_iff.mpr ⟨_, rfl, Hex.spells_encode a.toBytes⟩

end Address

/-! ## Libraries for hexadecimal text -/

/-- Reads and writes hexadecimal text with its prefix; a reader says how many bytes it wants. -/
structure HexLibrary where
  decode? : (width : Nat) → String → Option Bytes
  encode : Bytes → String

/-- A text that is one character of several bytes. -/
def LoneWide (s : String) : Prop := ∃ c : Char, s.toList = [c] ∧ 1 < c.utf8Size

namespace HexLibrary

/-- Read are `0x` and digits of either case that spell as many bytes as are wanted; what happens
with a lone wide character is left open. Written are lower-case digits. -/
structure Documented (lib : HexLibrary) : Prop where
  decode?_eq_some_iff : ∀ width s bs, ¬ LoneWide s → (lib.decode? width s = some bs ↔
    bs.length = width ∧ ∃ digits, s.toList = '0' :: 'x' :: digits ∧ Hex.Spells digits bs)
  encode_eq : ∀ bs, ∃ digits, (lib.encode bs).toList = '0' :: 'x' :: digits ∧
    Hex.Spells digits bs ∧ digits.map Char.toLower = digits

/-- Reads an address with a library, or refuses the text. -/
def addressOfText (lib : HexLibrary) (s : String) : Except Error Address :=
  match lib.decode? Address.width s with
  | some bs => .ok (.ofBytes bs)
  | none => .error (.invalidAddress s)

def addressText (lib : HexLibrary) (a : Address) : String := lib.encode a.toBytes

/-- A library that takes no other text. -/
def strict : HexLibrary where
  decode? width s :=
    match s.toList with
    | '0' :: 'x' :: digits => (Hex.decode? digits).filter (·.length = width)
    | _ => none
  encode bs := String.ofList ('0' :: 'x' :: Hex.encode bs)

theorem strict_documented : strict.Documented where
  decode?_eq_some_iff width s bs _ := by
    unfold strict
    dsimp only
    split
    · next digits heq =>
      rw [heq, Option.filter_eq_some_iff, Hex.decode?_eq_some_iff, decide_eq_true_eq]
      constructor
      · rintro ⟨hspell, hlen⟩
        exact ⟨hlen, digits, rfl, hspell⟩
      · rintro ⟨hlen, _, heq, hspell⟩
        cases heq
        exact ⟨hspell, hlen⟩
    · next hother =>
      constructor
      · exact fun h => nomatch h
      · rintro ⟨-, digits, hs, -⟩
        exact absurd hs (hother digits)
  encode_eq bs := ⟨Hex.encode bs, String.toList_ofList, Hex.spells_encode bs,
    by rw [(Hex.spells_encode bs).map_toLower]⟩

variable {lib : HexLibrary} (h : lib.Documented)
include h

theorem addressOfText_eq {s : String} (hs : ¬ LoneWide s) :
    lib.addressOfText s = Address.ofText s := by
  unfold addressOfText
  cases hread : lib.decode? Address.width s with
  | some bs =>
    obtain ⟨hlen, digits, hdigits, hspell⟩ := (h.decode?_eq_some_iff _ s bs hs).mp hread
    refine (Address.ofText_eq_ok_iff.mpr ⟨digits, hdigits, ?_⟩).symm
    rwa [Address.toBytes_ofBytes hlen]
  | none =>
    cases hown : Address.ofText s with
    | ok a =>
      obtain ⟨digits, hdigits, hspell⟩ := Address.ofText_eq_ok_iff.mp hown
      have hread' := (h.decode?_eq_some_iff _ s a.toBytes hs).mpr
        ⟨a.length_toBytes, digits, hdigits, hspell⟩
      rw [hread] at hread'
      cases hread'
    | error e =>
      unfold Address.ofText at hown
      split at hown
      · cases hown
      · exact hown

theorem addressText_eq (a : Address) : lib.addressText a = a.text := by
  obtain ⟨digits, hdigits, hspell, hlower⟩ := h.encode_eq a.toBytes
  rw [hspell.map_toLower] at hlower
  rw [← String.toList_inj, addressText, hdigits, a.spells_text.1, hlower]

end HexLibrary

/-! ## The text form -/

/-- The text form of addresses, with whatever library it is read and written. A text that is not
one wide character is read just if it is `0x` and forty digits; its address is written as the text
in lower case and has the bytes that the digits spell. Every address is read from its text, and
from its text as a JSON string, and texts stand in the order of the addresses, which is that of
their bytes. -/
theorem Address.text_form (lib : HexLibrary) (h : lib.Documented) :
    (∀ s, ¬ LoneWide s → lib.addressOfText s = ofText s ∧
      ((∃ a, ofText s = .ok a) ↔ ∃ digits, s.toList = '0' :: 'x' :: digits ∧
        digits.length = 40 ∧ ∀ c ∈ digits, Hex.IsDigit c)) ∧
    (∀ a, lib.addressText a = a.text) ∧
    (∀ s a, ofText s = .ok a → ∃ digits, s.toList = '0' :: 'x' :: digits ∧
      Hex.Spells digits a.toBytes ∧
      a.text.toList = '0' :: 'x' :: digits.map Char.toLower) ∧
    (∀ a, ofText a.text = .ok a) ∧
    (∀ a, a.jsonText = '"' :: a.text.toList ++ ['"'] ∧
      (Json.parse? a.jsonText).bind ofJson? = some a) ∧
    ∀ a b : Address, (a < b ↔ a.toBytes < b.toBytes) ∧ (a < b ↔ a.text < b.text) := by
  refine ⟨fun s hs => ⟨lib.addressOfText_eq h hs, exists_ofText_iff s⟩, lib.addressText_eq h,
    fun s a hread => ?_, ofText_text, fun a => ⟨?_, ?_⟩, fun a b => ⟨lt_iff_toBytes_lt a b, ?_⟩⟩
  · obtain ⟨digits, hs, hspell⟩ := ofText_eq_ok_iff.mp hread
    exact ⟨digits, hs, hspell, by rw [hspell.map_toLower, a.spells_text.1]⟩
  · rw [a.spells_text.1]
    rfl
  · rw [Json.parse?_of_reads a.reads_jsonText]
    exact a.ofJson?_chars
  · rw [text_lt_iff, lt_iff_toBytes_lt]

/-- An address that is given with letters of either case. -/
theorem Address.text_form_of_mixed_case :
    HexLibrary.strict.Documented ∧ ¬ LoneWide "0x48bBf1c68037BF35b0eB090f1B5E0fa52F690502" ∧
      ∃ a, HexLibrary.strict.addressOfText "0x48bBf1c68037BF35b0eB090f1B5E0fa52F690502" = .ok a ∧
        HexLibrary.strict.addressText a = "0x48bbf1c68037bf35b0eb090f1b5e0fa52f690502" := by
  have hwide : ¬ LoneWide "0x48bBf1c68037BF35b0eB090f1B5E0fa52F690502" := by
    rintro ⟨c, hc, -⟩
    cases congrArg List.length hc
  obtain ⟨hread, htext, hlower, -⟩ := Address.text_form .strict HexLibrary.strict_documented
  obtain ⟨hsame, haccepted⟩ := hread _ hwide
  have hall : ("0x48bBf1c68037BF35b0eB090f1B5E0fa52F690502".toList.drop 2).all
      fun c => decide (Hex.IsDigit c) := by decide
  obtain ⟨a, ha⟩ := haccepted.mpr
    ⟨_, rfl, rfl, fun c hc => of_decide_eq_true (List.all_eq_true.mp hall c hc)⟩
  obtain ⟨digits, hs, -, hlow⟩ := hlower _ a ha
  have hdigits := congrArg (List.drop 2) hs
  refine ⟨HexLibrary.strict_documented, hwide, a, hsame.trans ha, ?_⟩
  rw [htext, ← String.toList_inj, hlow]
  change _ = digits at hdigits
  rw [← hdigits]
  decide

end AppearanceIndex
