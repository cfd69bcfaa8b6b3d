import AppearanceIndex.Hex

/-!
# Hexadecimal digits and the bytes that they spell

`Hex.Spells` is the relation between digits of either case, two for each byte, and the bytes that
they spell. `Hex.decode?` decides it, `Hex.encode` writes the one spelling in lower case, and
lower-case spellings stand in the order of the bytes.
-/

namespace AppearanceIndex.Hex

/-! ## Digits -/

/-- A hexadecimal digit of either case. -/
def IsDigit (c : Char) : Prop :=
  ('0' ≤ c ∧ c ≤ '9') ∨ ('a' ≤ c ∧ c ≤ 'f') ∨ ('A' ≤ c ∧ c ≤ 'F')

instance (c : Char) : Decidable (IsDigit c) := inferInstanceAs (Decidable (_ ∨ _))

/-- A digit of a value, in whatever case. -/
def DigitOf (n : Nat) (c : Char) : Prop := c.toLower = Nat.digitChar n

instance (n : Nat) (c : Char) : Decidable (DigitOf n c) := inferInstanceAs (Decidable (_ = _))

section

variable {c : Char} {n m : Nat}

/-- What holds of the characters below 128 one by one. -/
theorem of_ascii (P : Char → Prop) (h : ∀ k < 128, P (Char.ofNat k)) (hc : c.toNat < 128) :
    P c := by
  have hp := h c.toNat hc
  rwa [Char.ofNat_toNat] at hp

theorem toNat_le_toLower (c : Char) : c.toNat ≤ c.toLower.toNat := by
  unfold Char.toLower
  split
  · next h =>
    have hupper : c.val.toNat ≤ 90 := UInt32.le_iff_toNat_le.mp h.2
    have hstep : (32 : UInt32).toNat = 32 := rfl
    show c.val.toNat ≤ (c.val + 32).toNat
    rw [UInt32.toNat_add]
    omega
  · exact Nat.le_refl _

theorem lt_ascii_of_isDigit (h : IsDigit c) : c.toNat < 128 := by
  rcases h with ⟨-, h⟩ | ⟨-, h⟩ | ⟨-, h⟩
  all_goals exact Nat.lt_of_le_of_lt (UInt32.le_iff_toNat_le.mp h) (by decide)

theorem lt_ascii_of_digitOf (hn : n < 16) (h : DigitOf n c) : c.toNat < 128 := by
  have hdigit : ∀ n < 16, (Nat.digitChar n).toNat < 128 := by decide
  refine Nat.lt_of_le_of_lt (toNat_le_toLower c) ?_
  rw [show c.toLower = Nat.digitChar n from h]
  exact hdigit n hn

theorem value?_of_digitOf (hn : n < 16) (h : DigitOf n c) : value? c = some n := by
  refine of_ascii (fun c => ∀ n < 16, DigitOf n c → value? c = some n) ?_
    (lt_ascii_of_digitOf hn h) n hn h
  decide +kernel

theorem exists_digitOf (h : IsDigit c) : ∃ n < 16, DigitOf n c := by
  refine of_ascii (fun c => IsDigit c → ∃ n < 16, DigitOf n c) ?_ (lt_ascii_of_isDigit h) h
  decide +kernel

theorem isDigit_of_value? (h : value? c = some n) : IsDigit c := by
  unfold value? at h
  unfold IsDigit
  grind

theorem value?_eq_some_iff : value? c = some n ↔ n < 16 ∧ DigitOf n c := by
  constructor
  · intro h
    obtain ⟨m, hm, hdigit⟩ := exists_digitOf (isDigit_of_value? h)
    rw [value?_of_digitOf hm hdigit] at h
    cases h
    exact ⟨hm, hdigit⟩
  · rintro ⟨hn, h⟩
    exact value?_of_digitOf hn h

/-- A digit has one value. -/
theorem DigitOf.unique (hn : n < 16) (hm : m < 16) (h : DigitOf n c) (h' : DigitOf m c) :
    n = m := by
  have hvalue := value?_of_digitOf hn h
  rw [value?_of_digitOf hm h'] at hvalue
  exact (Option.some.inj hvalue).symm

theorem digit_eq_digitChar : ∀ n < 16, digit n = Nat.digitChar n := by decide

/-- The digit that is written is the one in lower case. -/
theorem DigitOf.toLower_eq (hn : n < 16) (h : DigitOf n c) : c.toLower = digit n := by
  rw [digit_eq_digitChar n hn]
  exact h

theorem digitOf_digit : ∀ n < 16, DigitOf n (digit n) := by decide

theorem digit_lt_iff : ∀ n < 16, ∀ m < 16, (digit n < digit m ↔ n < m) := by decide

theorem digit_inj (hn : n < 16) (hm : m < 16) (h : digit n = digit m) : n = m :=
  (digitOf_digit n hn).unique hn hm (h ▸ digitOf_digit m hm)

end

/-! ## Bytes -/

/-- The halves of a byte. -/
theorem halves_lt (b : UInt8) : b.toNat / 16 < 16 ∧ b.toNat % 16 < 16 := by
  have hb := b.toNat_lt
  omega

/-- The byte of two halves. -/
theorem halves_ofNat {p q : Nat} (hp : p < 16) (hq : q < 16) :
    (UInt8.ofNat (16 * p + q)).toNat / 16 = p ∧ (UInt8.ofNat (16 * p + q)).toNat % 16 = q := by
  have hbyte : 16 * p + q < 256 := by omega
  rw [UInt8.toNat_ofNat_of_lt' hbyte]
  omega

/-- Digits of either case spell bytes, two digits each. -/
inductive Spells : List Char → Bytes → Prop where
  | nil : Spells [] []
  | cons {high low : Char} {b : UInt8} {digits : List Char} {bs : Bytes}
      (hhigh : DigitOf (b.toNat / 16) high) (hlow : DigitOf (b.toNat % 16) low)
      (hrest : Spells digits bs) : Spells (high :: low :: digits) (b :: bs)

namespace Spells

variable {digits : List Char} {bs : Bytes}

theorem length_eq (h : Spells digits bs) : digits.length = 2 * bs.length := by
  induction h with
  | nil => rfl
  | cons _ _ _ ih =>
    simp only [List.length_cons]
    omega

theorem isDigit (h : Spells digits bs) : ∀ c ∈ digits, IsDigit c := by
  induction h with
  | nil => exact fun c hc => nomatch hc
  | @cons _ _ b _ _ hhigh hlow _ ih =>
    rw [List.forall_mem_cons, List.forall_mem_cons]
    obtain ⟨hh, hl⟩ := halves_lt b
    exact ⟨isDigit_of_value? (value?_of_digitOf hh hhigh),
      isDigit_of_value? (value?_of_digitOf hl hlow), ih⟩

/-- In lower case, a spelling is the text that is written. -/
theorem map_toLower (h : Spells digits bs) : digits.map Char.toLower = encode bs := by
  induction h with
  | nil => rfl
  | @cons _ _ b _ _ hhigh hlow _ ih =>
    obtain ⟨hh, hl⟩ := halves_lt b
    rw [List.map_cons, List.map_cons, ih, hhigh.toLower_eq hh, hlow.toLower_eq hl]
    rfl

end Spells

theorem spells_encode (bs : Bytes) : Spells (encode bs) bs := by
  induction bs with
  | nil => exact .nil
  | cons b bs ih =>
    obtain ⟨hh, hl⟩ := halves_lt b
    exact .cons (digitOf_digit _ hh) (digitOf_digit _ hl) ih

/-- Digits in pairs spell some bytes. -/
theorem exists_spells (n : Nat) {digits : List Char} (hlen : digits.length = 2 * n)
    (h : ∀ c ∈ digits, IsDigit c) : ∃ bs, bs.length = n ∧ Spells digits bs := by
  induction n generalizing digits with
  | zero =>
    rw [List.eq_nil_of_length_eq_zero hlen]
    exact ⟨[], rfl, .nil⟩
  | succ n ih =>
    match digits, hlen with
    | high :: low :: digits, hlen =>
      rw [List.forall_mem_cons, List.forall_mem_cons] at h
      obtain ⟨hhigh, hlow, hrest⟩ := h
      obtain ⟨p, hp, hpd⟩ := exists_digitOf hhigh
      obtain ⟨q, hq, hqd⟩ := exists_digitOf hlow
      obtain ⟨bs, hbs, hspell⟩ := ih (by simpa [Nat.mul_succ] using hlen) hrest
      obtain ⟨hh, hl⟩ := halves_ofNat hp hq
      exact ⟨UInt8.ofNat (16 * p + q) :: bs, by rw [List.length_cons, hbs],
        .cons (hh.symm ▸ hpd) (hl.symm ▸ hqd) hspell⟩

/-- Read are the spellings, and as the bytes that they spell. -/
theorem decode?_eq_some_iff {digits : List Char} {bs : Bytes} :
    decode? digits = some bs ↔ Spells digits bs := by
  constructor
  · intro h
    fun_induction decode? digits generalizing bs with
    | case1 =>
      cases h
      exact .nil
    | case2 => cases h
    | case3 high low digits ih =>
      simp only [Option.bind_eq_bind, Option.bind_eq_some_iff] at h
      obtain ⟨p, hp, q, hq, rest, hrest, heq⟩ := h
      cases heq
      obtain ⟨hplt, hpd⟩ := value?_eq_some_iff.mp hp
      obtain ⟨hqlt, hqd⟩ := value?_eq_some_iff.mp hq
      obtain ⟨hh, hl⟩ := halves_ofNat hplt hqlt
      exact .cons (hh.symm ▸ hpd) (hl.symm ▸ hqd) (ih hrest)
  · intro h
    induction h with
    | nil => rfl
    | @cons _ _ b _ _ hhigh hlow _ ih =>
      obtain ⟨hh, hl⟩ := halves_lt b
      rw [decode?, value?_of_digitOf hh hhigh, value?_of_digitOf hl hlow, ih]
      simp only [Option.bind_eq_bind, Option.bind_some, Nat.div_add_mod, UInt8.ofNat_toNat]
      rfl

/-! ## Order -/

/-- Bytes stand in the order of their texts: the first digits that differ belong to the first bytes
that differ. -/
theorem encode_lt_iff (bs cs : Bytes) : encode bs < encode cs ↔ bs < cs := by
  induction bs generalizing cs with
  | nil =>
    cases cs with
    | nil => simp
    | cons c cs => simp [encode]
  | cons b bs ih =>
    cases cs with
    | nil => simp [encode]
    | cons c cs =>
      obtain ⟨hh, hl⟩ := halves_lt b
      obtain ⟨hh', hl'⟩ := halves_lt c
      have heq : b = c ↔ b.toNat = c.toNat := UInt8.toNat_inj.symm
      have hinj (n m : Nat) (hn : n < 16) (hm : m < 16) : digit n = digit m ↔ n = m :=
        ⟨digit_inj hn hm, congrArg digit⟩
      -- two digits decide as their halves do, and the halves as the bytes
      simp only [encode, List.cons_lt_cons_iff]
      rw [ih, digit_lt_iff _ hh _ hh', digit_lt_iff _ hl _ hl', hinj _ _ hh hh', hinj _ _ hl hl',
        UInt8.lt_iff_toNat_lt, heq]
      by_cases hrest : bs < cs
      · simp only [hrest, and_true]
        omega
      · simp only [hrest, and_false, or_false]
        omega

end AppearanceIndex.Hex
