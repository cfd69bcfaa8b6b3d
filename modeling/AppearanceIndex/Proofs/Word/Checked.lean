import Mathlib.Algebra.Group.Nat.Defs

/-!
# Checked arithmetic on words

A word has a number of bits. `add?`, `sub?` and the others give the word that the operation gives,
or nothing if the result is not that of the numbers: there is no wrapping. `Word.Is` says that a
computation gives a word that is a certain number. A program whose words are checked runs in
`OptionT`, where `checked` ends it if there is no word; a program that never ends so is one over
numbers (`liftM`).
-/

namespace AppearanceIndex.Word

variable {v w : Nat}

/-! ## Operations -/

def add? (x y : BitVec w) : Option (BitVec w) := if x.uaddOverflow y then none else some (x + y)

def sub? (x y : BitVec w) : Option (BitVec w) := if x.usubOverflow y then none else some (x - y)

def mul? (x y : BitVec w) : Option (BitVec w) := if x.umulOverflow y then none else some (x * y)

def div? (x y : BitVec w) : Option (BitVec w) := if y = 0 then none else some (x / y)

def mod? (x y : BitVec w) : Option (BitVec w) := if y = 0 then none else some (x % y)

/-- A shift by less than the number of bits. -/
def shiftLeft? (x : BitVec w) (places : Nat) : Option (BitVec w) :=
  if places < w then some (x <<< places) else none

/-! ## Words as numbers -/

/-- The word that a computation gives, as a number. -/
def number? (r : Option (BitVec w)) : Option Nat := r.map BitVec.toNat

/-- The computation gives a word, which is this number. -/
def Is (r : Option (BitVec w)) (n : Nat) : Prop := number? r = some n

variable {r : Option (BitVec w)} {x y : BitVec w} {n k : Nat}

theorem is_iff : Is r n ↔ ∃ x, r = some x ∧ x.toNat = n := Option.map_eq_some_iff

theorem toNat_ofNat_of_lt (h : n < 2 ^ w) : (BitVec.ofNat w n).toNat = n := by
  rw [BitVec.toNat_ofNat, Nat.mod_eq_of_lt h]

theorem is_some (h : x.toNat = n) : Is (some x) n := congrArg some h

/-- One computation after another. -/
theorem Is.bind {f : BitVec w → Option (BitVec v)} (h : Is r n)
    (hf : ∀ x, x.toNat = n → Is (f x) k) : Is (r.bind f) k := by
  obtain ⟨x, rfl, hx⟩ := is_iff.mp h
  exact hf x hx

theorem is_add? (h : x.toNat + y.toNat = n) (hn : n < 2 ^ w) : Is (add? x y) n := by
  have hfits : ¬ x.uaddOverflow y = true := by simp [BitVec.uaddOverflow, h, hn]
  unfold add?
  rw [if_neg hfits]
  exact is_some ((BitVec.toNat_add_of_not_uaddOverflow hfits).trans h)

theorem is_sub? (h : x.toNat = y.toNat + n) : Is (sub? x y) n := by
  have hfits : ¬ x.usubOverflow y = true := by simp [BitVec.usubOverflow, h]
  unfold sub?
  rw [if_neg hfits]
  refine is_some ((BitVec.toNat_sub_of_not_usubOverflow hfits).trans ?_)
  omega

theorem is_mul? (h : x.toNat * y.toNat = n) (hn : n < 2 ^ w) : Is (mul? x y) n := by
  have hfits : ¬ x.umulOverflow y = true := by simp [BitVec.umulOverflow, h, hn]
  unfold mul?
  rw [if_neg hfits]
  exact is_some ((BitVec.toNat_mul_of_not_umulOverflow hfits).trans h)

theorem is_div? (h : x.toNat / y.toNat = n) (hy : 0 < y.toNat) : Is (div? x y) n := by
  have hne : y ≠ 0 := by
    rintro rfl
    exact absurd hy (by simp)
  unfold div?
  rw [if_neg hne]
  exact is_some (BitVec.toNat_udiv.trans h)

theorem is_mod? (h : x.toNat % y.toNat = n) (hy : 0 < y.toNat) : Is (mod? x y) n := by
  have hne : y ≠ 0 := by
    rintro rfl
    exact absurd hy (by simp)
  unfold mod?
  rw [if_neg hne]
  exact is_some (BitVec.toNat_umod.trans h)

/-! ## Offsets -/

/-- A word of 32 bits as one of 64. -/
def wide (x : BitVec 32) : BitVec 64 := x.setWidth 64

@[simp] theorem toNat_wide (x : BitVec 32) : (wide x).toNat = x.toNat :=
  BitVec.toNat_setWidth_of_le (by decide)

/-- The number of bytes of so many entries of a width. -/
def bytes? (count : BitVec 32) (width : Nat) : Option (BitVec 64) :=
  mul? (wide count) (BitVec.ofNat 64 width)

/-- The offset of an entry of a table, which starts at another. -/
def offset? (start : BitVec 64) (position : BitVec 32) (width : Nat) : Option (BitVec 64) := do
  let passed ← bytes? position width
  add? start passed

theorem is_bytes? (count : BitVec 32) {width : Nat} (hw : width < 2 ^ 32) :
    Is (bytes? count width) (count.toNat * width) := by
  have hwidth : (BitVec.ofNat 64 width).toNat = width := toNat_ofNat_of_lt (by omega)
  refine is_mul? (by rw [toNat_wide, hwidth]) ?_
  calc count.toNat * width < 2 ^ 32 * 2 ^ 32 := Nat.mul_lt_mul'' count.isLt hw
    _ = 2 ^ 64 := by decide

theorem is_offset? {start : BitVec 64} {position : BitVec 32} {width : Nat}
    (h : start.toNat + position.toNat * width = n) (hw : width < 2 ^ 32) (hn : n < 2 ^ 64) :
    Is (offset? start position width) n := by
  refine (is_bytes? position hw).bind fun passed hpassed => is_add? ?_ hn
  rw [hpassed, h]

/-! ## Programs -/

variable {m : Type → Type} [Monad m]

/-- The result of a computation, or the end of the program if there is none. -/
def checked {α : Type} (r : Option α) : OptionT m α := OptionT.mk (pure r)

theorem checked_some {α : Type} (a : α) : (checked (some a) : OptionT m α) = pure a := rfl

end AppearanceIndex.Word
