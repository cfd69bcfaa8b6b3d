/-!
# Totals

The total of a measure over a list, and what becomes of it when the list changes in one place.
-/

namespace AppearanceIndex

/-- The sum of a measure over a list. -/
def total {α : Type} (f : α → Nat) : List α → Nat
  | [] => 0
  | a :: as => f a + total f as

@[simp] theorem total_nil {α : Type} (f : α → Nat) : total f [] = 0 := rfl

@[simp] theorem total_cons {α : Type} (f : α → Nat) (a : α) (as : List α) :
    total f (a :: as) = f a + total f as := rfl

@[simp] theorem total_append {α : Type} (f : α → Nat) (as bs : List α) :
    total f (as ++ bs) = total f as + total f bs := by
  induction as with
  | nil => simp
  | cons a as ih => simp only [List.cons_append, total_cons, ih]; omega

theorem total_take_le {α : Type} (f : α → Nat) (as : List α) (i : Nat) :
    total f (as.take i) ≤ total f as := by
  have hsplit := total_append f (as.take i) (as.drop i)
  rw [List.take_append_drop] at hsplit
  omega

theorem total_set {α : Type} (f : α → Nat) {as : List α} {i : Nat} {a : α} (h : as[i]? = some a)
    (b : α) : total f (as.set i b) + f a = total f as + f b := by
  induction as generalizing i with
  | nil => cases h
  | cons c as ih =>
    cases i with
    | zero =>
      simp only [List.getElem?_cons_zero, Option.some.injEq] at h
      subst h
      simp only [List.set_cons_zero, total_cons]
      omega
    | succ i =>
      have := ih (i := i) (by simpa using h)
      simp only [List.set_cons_succ, total_cons]
      omega

end AppearanceIndex
