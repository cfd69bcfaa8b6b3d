/-!
# Digits in order

Equally long digit strings stand in the order of the numbers that they spell, whatever the base,
if the digits themselves stand in the order of their values (`DigitOrder`). Reading from the left,
the number that has been spelled so far decides, and only where it is the same does the rest.
-/

namespace AppearanceIndex

/-- The number that digits spell in a base, read on from the number spelled before them. -/
def spelledFrom {α : Type} (base : Nat) (value : α → Nat) (start : Nat) (digits : List α) : Nat :=
  digits.foldl (fun n c => base * n + value c) start

/-- The digits of a base, in the order of their values. -/
structure DigitOrder {α : Type} [LT α] (base : Nat) (value : α → Nat) (IsDigit : α → Prop) :
    Prop where
  value_lt : ∀ c, IsDigit c → value c < base
  lt_iff : ∀ c d, IsDigit c → IsDigit d → (c < d ↔ value c < value d)
  inj : ∀ c d, IsDigit c → IsDigit d → value c = value d → c = d

namespace DigitOrder

variable {α : Type} [LT α] {base : Nat} {value : α → Nat} {IsDigit : α → Prop} {xs ys : List α}

/-- One digit more: the numbers so far decide, then the digits. -/
theorem next_lt_iff (h : DigitOrder base value IsDigit) {m n : Nat} {c d : α} (hc : IsDigit c)
    (hd : IsDigit d) :
    base * m + value c < base * n + value d ↔ m < n ∨ (m = n ∧ c < d) := by
  have hcb := h.value_lt c hc
  have hdb := h.value_lt d hd
  rw [h.lt_iff c d hc hd]
  rcases Nat.lt_trichotomy m n with hlt | rfl | hgt
  · have hmul : base * (m + 1) ≤ base * n := Nat.mul_le_mul_left base hlt
    rw [Nat.mul_succ] at hmul
    omega
  · omega
  · have hmul : base * (n + 1) ≤ base * m := Nat.mul_le_mul_left base hgt
    rw [Nat.mul_succ] at hmul
    omega

theorem next_eq_iff (h : DigitOrder base value IsDigit) {m n : Nat} {c d : α} (hc : IsDigit c)
    (hd : IsDigit d) : base * m + value c = base * n + value d ↔ m = n ∧ c = d := by
  constructor
  · intro heq
    have hlt : ¬ (m < n ∨ (m = n ∧ c < d)) := by
      rw [← h.next_lt_iff hc hd]
      omega
    have hgt : ¬ (n < m ∨ (n = m ∧ d < c)) := by
      rw [← h.next_lt_iff hd hc]
      omega
    obtain rfl : m = n := by omega
    exact ⟨rfl, h.inj c d hc hd (by omega)⟩
  · rintro ⟨rfl, rfl⟩
    rfl

theorem spelledFrom_lt_iff (h : DigitOrder base value IsDigit) (hx : ∀ c ∈ xs, IsDigit c)
    (hy : ∀ c ∈ ys, IsDigit c) (hlen : xs.length = ys.length) (m n : Nat) :
    spelledFrom base value m xs < spelledFrom base value n ys ↔
      m < n ∨ (m = n ∧ xs < ys) := by
  induction xs generalizing ys m n with
  | nil =>
    cases ys with
    | nil => simp [spelledFrom]
    | cons d ys => cases hlen
  | cons c xs ih =>
    cases ys with
    | nil => cases hlen
    | cons d ys =>
      rw [List.forall_mem_cons] at hx hy
      have hrest := ih hx.2 hy.2 (Nat.succ.inj hlen) (base * m + value c) (base * n + value d)
      rw [h.next_lt_iff hx.1 hy.1, h.next_eq_iff hx.1 hy.1] at hrest
      rw [List.cons_lt_cons_iff]
      refine hrest.trans ?_
      grind

/-- Equally long digit strings are ordered as their numbers. -/
theorem lt_iff_spelled_lt (h : DigitOrder base value IsDigit) (hx : ∀ c ∈ xs, IsDigit c)
    (hy : ∀ c ∈ ys, IsDigit c) (hlen : xs.length = ys.length) :
    xs < ys ↔ spelledFrom base value 0 xs < spelledFrom base value 0 ys := by
  rw [h.spelledFrom_lt_iff hx hy hlen]
  simp

end DigitOrder

/-- Of lists with beginnings of one length, the beginnings decide, then the rests. -/
theorem append_lt_append_iff {α : Type} [LT α] {xs ys us vs : List α}
    (hlen : xs.length = ys.length) : xs ++ us < ys ++ vs ↔ xs < ys ∨ (xs = ys ∧ us < vs) := by
  induction xs generalizing ys with
  | nil =>
    cases ys with
    | nil => simp
    | cons d ys => cases hlen
  | cons c xs ih =>
    cases ys with
    | nil => cases hlen
    | cons d ys =>
      rw [List.cons_append, List.cons_append, List.cons_lt_cons_iff, List.cons_lt_cons_iff,
        ih (Nat.succ.inj hlen), List.cons.injEq]
      grind

end AppearanceIndex
