import AppearanceIndex.Text.Decimal

/-!
# Decimal numerals

A numeral of a number is one or more ASCII digits that spell it, leading zeros included, behind one
plus sign or none (`Decimal.Numeral`). `Decimal.unsigned?` reads exactly the numerals of numbers
below its limit. The text of a number, padded or not, is a numeral of it.
-/

namespace AppearanceIndex.Decimal

/-! ## Digits -/

def IsDigit (c : Char) : Prop := (digitValue? c).isSome = true

instance (c : Char) : Decidable (IsDigit c) := inferInstanceAs (Decidable (_ = _))

theorem digitValue?_digit : ∀ n < 10, digitValue? (digit n) = some n := by decide

theorem isDigit_zero : IsDigit '0' := by decide

theorem isDigit_of_mem_digits {n : Nat} {c : Char} (h : c ∈ digits n) : IsDigit c := by
  induction n using Nat.strongRecOn with
  | ind n ih =>
    rw [digits] at h
    split at h
    · next hlt =>
      rw [List.mem_singleton.mp h, IsDigit, digitValue?_digit n hlt]
      rfl
    · next hge =>
      rcases List.mem_append.mp h with h | h
      · exact ih (n / 10) (by omega) h
      · rw [List.mem_singleton.mp h, IsDigit, digitValue?_digit _ (Nat.mod_lt n (by decide))]
        rfl

theorem isDigit_of_mem_paddedDigits {width n : Nat} {c : Char} (h : c ∈ paddedDigits width n) :
    IsDigit c := by
  rcases List.mem_append.mp h with h | h
  · rw [(List.mem_replicate.mp h).2]
    exact isDigit_zero
  · exact isDigit_of_mem_digits h

theorem digits_ne_nil (n : Nat) : digits n ≠ [] := by
  rw [digits]
  split <;> simp

theorem length_digits_le {k n : Nat} (h : n < Nat.pow 10 (k + 1)) :
    (digits n).length ≤ k + 1 := by
  induction k generalizing n with
  | zero =>
    have hten : n < 10 := h
    rw [digits, if_pos hten]
    exact Nat.le_refl 1
  | succ k ih =>
    have hpow : Nat.pow 10 (k + 1 + 1) = Nat.pow 10 (k + 1) * 10 := rfl
    rw [digits]
    split
    · simp
    · have hrest := ih (n := n / 10) (by omega)
      rw [List.length_append, List.length_singleton]
      omega

theorem length_paddedDigits {k n : Nat} (h : n < Nat.pow 10 (k + 1)) :
    (paddedDigits (k + 1) n).length = k + 1 := by
  have hlen := length_digits_le h
  rw [paddedDigits, List.length_append, List.length_replicate]
  omega

theorem digitValue?_eq_some_iff {c : Char} {d : Nat} :
    digitValue? c = some d ↔ c.isDigit = true ∧ c.toNat - '0'.toNat = d := by
  have hrange : c.isDigit = true ↔ '0' ≤ c ∧ c ≤ '9' := by
    rw [Char.isDigit, Bool.and_eq_true, decide_eq_true_eq, decide_eq_true_eq]
    exact Iff.rfl
  rw [hrange]
  unfold digitValue?
  split
  · next h => simp [h]
  · next h => simp [h]

/-! ## Values -/

theorem accumulate_eq_some_iff {acc n : Nat} {cs : List Char} :
    accumulate acc cs = some n ↔
      (∀ c ∈ cs, c.isDigit = true) ∧ Nat.ofDigitChars 10 cs acc = n := by
  induction cs generalizing acc with
  | nil => simp [accumulate]
  | cons c cs ih =>
    rw [accumulate, Option.bind_eq_some_iff, List.forall_mem_cons, Nat.ofDigitChars_cons]
    constructor
    · rintro ⟨d, hd, hrest⟩
      obtain ⟨hdigit, rfl⟩ := digitValue?_eq_some_iff.mp hd
      obtain ⟨hdigits, hvalue⟩ := ih.mp hrest
      exact ⟨⟨hdigit, hdigits⟩, hvalue⟩
    · rintro ⟨⟨hdigit, hdigits⟩, hvalue⟩
      exact ⟨_, digitValue?_eq_some_iff.mpr ⟨hdigit, rfl⟩, ih.mpr ⟨hdigits, hvalue⟩⟩

theorem accumulate_append (acc : Nat) (cs ds : List Char) :
    accumulate acc (cs ++ ds) = (accumulate acc cs).bind (accumulate · ds) := by
  induction cs generalizing acc with
  | nil => rfl
  | cons c cs ih =>
    rw [List.cons_append, accumulate, accumulate]
    cases digitValue? c with
    | none => rfl
    | some d => exact ih (10 * acc + d)

theorem accumulate_digits (n : Nat) : accumulate 0 (digits n) = some n := by
  induction n using Nat.strongRecOn with
  | ind n ih =>
    rw [digits]
    split
    · next hlt => simp [accumulate, digitValue?_digit n hlt]
    · next hge =>
      have hmod := digitValue?_digit _ (Nat.mod_lt n (by decide))
      rw [accumulate_append, ih (n / 10) (by omega)]
      simp only [accumulate, Option.bind_some, hmod]
      rw [Nat.div_add_mod]

theorem accumulate_replicate (k : Nat) (cs : List Char) :
    accumulate 0 (List.replicate k '0' ++ cs) = accumulate 0 cs := by
  induction k with
  | zero => rfl
  | succ k ih =>
    have hzero : digitValue? '0' = some 0 := rfl
    rw [List.replicate_succ, List.cons_append, accumulate, hzero]
    exact ih

/-! ## Numerals -/

/-- One or more ASCII digits spell a number. -/
structure Spells (cs : List Char) (n : Nat) : Prop where
  nonempty : cs ≠ []
  digits : ∀ c ∈ cs, c.isDigit = true
  value : Nat.ofDigitChars 10 cs 0 = n

/-- Digits that spell a number, behind a plus sign or not. -/
def Numeral (cs : List Char) (n : Nat) : Prop :=
  Spells cs n ∨ ∃ ds, cs = '+' :: ds ∧ Spells ds n

theorem value?_eq_some_iff {cs : List Char} {n : Nat} : value? cs = some n ↔ Spells cs n := by
  cases cs with
  | nil =>
    constructor
    · intro h
      cases h
    · intro h
      exact absurd rfl h.nonempty
  | cons c cs =>
    have hvalue : value? (c :: cs) = accumulate 0 (c :: cs) := rfl
    rw [hvalue, accumulate_eq_some_iff]
    exact ⟨fun h => ⟨List.cons_ne_nil _ _, h.1, h.2⟩, fun h => ⟨h.digits, h.value⟩⟩

theorem spells_paddedDigits (width n : Nat) : Spells (paddedDigits width n) n := by
  have hvalue : accumulate 0 (paddedDigits width n) = some n := by
    rw [paddedDigits, accumulate_replicate, accumulate_digits]
  obtain ⟨hdigits, hn⟩ := accumulate_eq_some_iff.mp hvalue
  exact ⟨fun h => digits_ne_nil n (List.append_eq_nil_iff.mp h).2, hdigits, hn⟩

theorem spells_digits (n : Nat) : Spells (digits n) n := by
  have hpadded : paddedDigits 0 n = digits n := by simp [paddedDigits]
  exact hpadded ▸ spells_paddedDigits 0 n

/-- Digits do not begin with a plus sign. -/
theorem Spells.ne_plus {cs ds : List Char} {n : Nat} (h : Spells cs n) : cs ≠ '+' :: ds := by
  rintro rfl
  exact absurd (h.digits '+' List.mem_cons_self) (by decide)

/-- Read are the numerals of the numbers below the limit. -/
theorem unsigned?_eq_some_iff {limit n : Nat} {cs : List Char} :
    unsigned? limit cs = some n ↔ Numeral cs n ∧ n < limit := by
  unfold unsigned?
  rw [Option.filter_eq_some_iff, decide_eq_true_eq, value?_eq_some_iff]
  refine and_congr_left fun _ => ?_
  split
  · next ds =>
    constructor
    · exact fun h => .inr ⟨ds, rfl, h⟩
    · rintro (h | ⟨es, heq, h⟩)
      · exact absurd rfl h.ne_plus
      · cases heq
        exact h
  · next hplus =>
    constructor
    · exact .inl
    · rintro (h | ⟨ds, rfl, -⟩)
      · exact h
      · exact absurd rfl (hplus ds)

theorem numeral_paddedDigits (width n : Nat) : Numeral (paddedDigits width n) n :=
  .inl (spells_paddedDigits width n)

namespace Numeral

variable {cs : List Char} {n m : Nat}

theorem unique (h : Numeral cs n) (h' : Numeral cs m) : n = m := by
  have hread := unsigned?_eq_some_iff.mpr ⟨h, Nat.lt_succ_of_le (Nat.le_max_left n m)⟩
  have hread' := unsigned?_eq_some_iff.mpr ⟨h', Nat.lt_succ_of_le (Nat.le_max_right n m)⟩
  rw [hread] at hread'
  exact Option.some.inj hread'

/-- A numeral is read if its number is not too large. -/
theorem unsigned?_eq (h : Numeral cs n) (limit : Nat) :
    unsigned? limit cs = if n < limit then some n else none := by
  split
  · next hlt => exact unsigned?_eq_some_iff.mpr ⟨h, hlt⟩
  · next hge =>
    refine Option.eq_none_iff_forall_ne_some.mpr fun m hm => ?_
    obtain ⟨h', hlt⟩ := unsigned?_eq_some_iff.mp hm
    exact hge (h.unique h' ▸ hlt)

/-- A numeral holds no character that is neither a digit nor the sign. -/
theorem not_mem (h : Numeral cs n) {c : Char} (hd : c.isDigit = false) (hp : c ≠ '+') :
    c ∉ cs := by
  intro hmem
  rcases h with h | ⟨ds, rfl, h⟩
  · rw [h.digits c hmem] at hd
    cases hd
  · rcases List.mem_cons.mp hmem with rfl | hmem
    · exact hp rfl
    · rw [h.digits c hmem] at hd
      cases hd

end Numeral

end AppearanceIndex.Decimal
