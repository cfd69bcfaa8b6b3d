import AppearanceIndex.Proofs.Text.Positional
import AppearanceIndex.Proofs.Text.RangeName

/-!
# The order of ranges

Ranges are ordered by their first blocks, then by their last. Stems of ranges whose bounds have no
more than nine digits stand in the same order, because all their numbers are written with nine.
-/

namespace AppearanceIndex

variable {r s : BlockRange}

namespace BlockRange

theorem isLE_cmp_iff {r s : BlockRange} : (r.cmp s).isLE = true ↔
    r.first.toNat < s.first.toNat ∨
      (r.first.toNat = s.first.toNat ∧ r.last.toNat ≤ s.last.toNat) := by
  unfold cmp
  rw [Ordering.isLE_then_iff_or, Nat.compare_eq_lt, Nat.compare_eq_eq, Nat.isLE_compare]

theorem eq_of_isLE {r s : BlockRange} (h : (r.cmp s).isLE = true) (h' : (s.cmp r).isLE = true) :
    r = s := by
  rw [isLE_cmp_iff] at h h'
  obtain ⟨first, last⟩ := r
  obtain ⟨first', last'⟩ := s
  dsimp only at h h'
  rw [mk.injEq, ← UInt64.toNat_inj, ← UInt64.toNat_inj]
  omega

theorem eq_of_cmp {r s : BlockRange} (h : r.cmp s = .eq) : r = s := by
  unfold cmp at h
  rw [Ordering.then_eq_eq, Nat.compare_eq_eq, Nat.compare_eq_eq] at h
  obtain ⟨first, last⟩ := r
  obtain ⟨first', last'⟩ := s
  rw [mk.injEq]
  exact ⟨UInt64.toNat_inj.mp h.1, UInt64.toNat_inj.mp h.2⟩

theorem cmp_eq_lt_iff : r.cmp s = .lt ↔
    r.first.toNat < s.first.toNat ∨
      (r.first.toNat = s.first.toNat ∧ r.last.toNat < s.last.toNat) := by
  unfold cmp
  rw [Ordering.then_eq_lt, Nat.compare_eq_lt, Nat.compare_eq_eq, Nat.compare_eq_lt]

theorem cmp_self (r : BlockRange) : r.cmp r = .eq := by
  unfold cmp
  rw [Ordering.then_eq_eq, Nat.compare_eq_eq, Nat.compare_eq_eq]
  exact ⟨rfl, rfl⟩

end BlockRange

/-! ## The order of stems -/

namespace Decimal

/-- Decimal digits stand in the order of their values. -/
theorem digitOrder : DigitOrder 10 (fun c : Char => c.toNat - '0'.toNat)
    (fun c => c.isDigit = true) where
  value_lt c hc := by
    rw [Char.isDigit_iff_toNat] at hc
    have hnine : '9'.toNat = '0'.toNat + 9 := rfl
    omega
  lt_iff c d hc hd := by
    rw [Char.isDigit_iff_toNat] at hc hd
    have hlt : c < d ↔ c.toNat < d.toNat := Iff.rfl
    rw [hlt]
    omega
  inj c d hc hd h := by
    rw [Char.isDigit_iff_toNat] at hc hd
    exact Char.toNat_inj.mp (by omega)

/-- Numbers that are padded to the same width are written in their order. -/
theorem paddedDigits_lt_iff {k m n : Nat} (hm : m < Nat.pow 10 (k + 1))
    (hn : n < Nat.pow 10 (k + 1)) :
    paddedDigits (k + 1) m < paddedDigits (k + 1) n ↔ m < n := by
  have hspell := spells_paddedDigits (k + 1) m
  have hspell' := spells_paddedDigits (k + 1) n
  have hvalue : spelledFrom 10 (fun c : Char => c.toNat - '0'.toNat) 0 (paddedDigits (k + 1) m)
      = m := hspell.value
  have hvalue' : spelledFrom 10 (fun c : Char => c.toNat - '0'.toNat) 0 (paddedDigits (k + 1) n)
      = n := hspell'.value
  rw [digitOrder.lt_iff_spelled_lt hspell.digits hspell'.digits
    ((length_paddedDigits hm).trans (length_paddedDigits hn).symm), hvalue, hvalue']

end Decimal

namespace BlockRange

/-- Both bounds fit the width to which a stem pads them. -/
structure FitsStem (r : BlockRange) : Prop where
  first : r.first < 1000000000
  last : r.last < 1000000000

theorem FitsStem.bounds (h : r.FitsStem) :
    r.first.toNat < Nat.pow 10 (8 + 1) ∧ r.last.toNat < Nat.pow 10 (8 + 1) :=
  ⟨UInt64.lt_iff_toNat_lt.mp h.first, UInt64.lt_iff_toNat_lt.mp h.last⟩

theorem eq_of_fileStem (h : r.fileStem = s.fileStem) : r = s := by
  have hr := NameParts.spell_padded (.inl rfl : IsDirectory "") (.inl rfl : IsEnding "") 9 r
  have hs := NameParts.spell_padded (.inl rfl : IsDirectory "") (.inl rfl : IsEnding "") 9 s
  have hname : (NameParts.padded 9 r "" "").name = (NameParts.padded 9 s "" "").name := by
    rw [NameParts.name_fileStem, NameParts.name_fileStem, h]
  obtain ⟨-, hfirst, hlast⟩ := hr.unique hs hname
  obtain ⟨first, last⟩ := r
  obtain ⟨first', last'⟩ := s
  rw [mk.injEq]
  exact ⟨UInt64.toNat_inj.mp hfirst, UInt64.toNat_inj.mp hlast⟩

theorem fileStem_lt_iff (hr : r.FitsStem) (hs : s.FitsStem) :
    r.fileStem < s.fileStem ↔ r.cmp s = .lt := by
  obtain ⟨hrf, hrl⟩ := hr.bounds
  obtain ⟨hsf, hsl⟩ := hs.bounds
  have hlen : (Decimal.paddedDigits 9 r.first.toNat).length =
      (Decimal.paddedDigits 9 s.first.toNat).length := by
    rw [Decimal.length_paddedDigits hrf, Decimal.length_paddedDigits hsf]
  have hsame : Decimal.paddedDigits 9 r.first.toNat = Decimal.paddedDigits 9 s.first.toNat ↔
      r.first.toNat = s.first.toNat := by
    constructor
    · intro h
      have hspell := Decimal.numeral_paddedDigits 9 r.first.toNat
      rw [h] at hspell
      exact hspell.unique (Decimal.numeral_paddedDigits 9 s.first.toNat)
    · intro h
      rw [h]
  rw [String.lt_iff, fileStem, fileStem, String.toList_ofList, String.toList_ofList,
    stemChars, stemChars, append_lt_append_iff hlen, List.cons_lt_cons_iff,
    Decimal.paddedDigits_lt_iff hrf hsf, Decimal.paddedDigits_lt_iff hrl hsl, hsame, cmp_eq_lt_iff]
  simp

/-- The order of stems as text is the order of the ranges. -/
theorem compare_fileStem (hr : r.FitsStem) (hs : s.FitsStem) :
    compare r.fileStem s.fileStem = compare r s := by
  have htext : compare r.fileStem s.fileStem =
      if r.fileStem < s.fileStem then .lt else if r.fileStem = s.fileStem then .eq else .gt := rfl
  have hcmp : compare r s = r.cmp s := rfl
  rw [htext, hcmp]
  cases horder : r.cmp s with
  | lt => rw [if_pos ((fileStem_lt_iff hr hs).mpr horder)]
  | eq =>
    obtain rfl := eq_of_cmp horder
    rw [if_neg (String.lt_irrefl _), if_pos rfl]
  | gt =>
    have hlt : ¬ r.fileStem < s.fileStem := by
      rw [fileStem_lt_iff hr hs, horder]
      decide
    have hne : r.fileStem ≠ s.fileStem := by
      intro h
      obtain rfl := eq_of_fileStem h
      rw [cmp_self] at horder
      cases horder
    rw [if_neg hlt, if_neg hne]

/-- A printed range is read back wherever it stands, if its bounds are in order, and refused
otherwise. Stems name one range each, and stand in the order of the ranges. -/
theorem printed_reads_back :
    (∀ (r : BlockRange) (directory ending printed : String), IsDirectory directory →
      IsEnding ending → printed = r.text ∨ printed = r.fileStem →
        ofName (directory ++ printed ++ ending) =
          if r.first ≤ r.last then .ok r
          else .error (.invalidBlockRange (directory ++ printed ++ ending))) ∧
    (∀ r s : BlockRange, r.fileStem = s.fileStem → r = s) ∧
    (∀ r s : BlockRange, r.FitsStem → s.FitsStem →
      compare r.fileStem s.fileStem = compare r s) := by
  refine ⟨fun r directory ending printed hd he hp => ?_, fun r s => eq_of_fileStem,
    fun r s => compare_fileStem⟩
  have hread := parse?_printed hd he hp
  by_cases hordered : r.first ≤ r.last
  · rw [if_pos hordered] at hread ⊢
    exact ofName_eq_ok.mpr hread
  · rw [if_neg hordered] at hread ⊢
    exact ofName_eq_error.mpr hread

end BlockRange

end AppearanceIndex
