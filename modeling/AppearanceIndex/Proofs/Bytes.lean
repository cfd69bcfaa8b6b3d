import AppearanceIndex.Bytes

/-!
# Words and blocks inside longer byte strings

A word is read back where it was written, whatever surrounds it, and only the bytes in front of its
end count. Cutting whole blocks off a byte string, or keeping some of them, cuts or keeps as many
of its blocks.
-/

namespace AppearanceIndex.Bytes

/-! ## Words -/

theorem wordAt_append (front word rest : Bytes) {at_ width : Nat} (hf : front.length = at_)
    (hw : word.length = width) :
    wordAt (front ++ (word ++ rest)) at_ width = ofLittleEndian word := by
  unfold wordAt
  rw [List.drop_left' hf, List.take_left' hw]

theorem wordAt_take {bs : Bytes} {at_ width n : Nat} (h : at_ + width ≤ n) :
    wordAt (bs.take n) at_ width = wordAt bs at_ width := by
  unfold wordAt
  rw [List.drop_take, List.take_take, Nat.min_eq_left (by omega)]

/-- Strings that have the same bytes in a stretch have the same stretch. -/
theorem slice_congr {bs other : Bytes} {offset count : Nat}
    (h : ∀ i < count, other[offset + i]? = bs[offset + i]?) :
    (other.drop offset).take count = (bs.drop offset).take count := by
  refine List.ext_getElem? fun i => ?_
  by_cases hi : i < count
  · rw [List.getElem?_take_of_lt hi, List.getElem?_take_of_lt hi, List.getElem?_drop,
      List.getElem?_drop, h i hi]
  · rw [List.getElem?_take_eq_none (Nat.le_of_not_lt hi),
      List.getElem?_take_eq_none (Nat.le_of_not_lt hi)]

/-- Strings that have the same bytes at a word have the same word. -/
theorem wordAt_congr {bs other : Bytes} {at_ width : Nat}
    (h : ∀ i < width, other[at_ + i]? = bs[at_ + i]?) :
    wordAt other at_ width = wordAt bs at_ width :=
  congrArg ofLittleEndian (slice_congr h)

theorem wordAt_lt (bs : Bytes) (at_ width : Nat) : wordAt bs at_ width < capacity width := by
  have hlt := ofLittleEndian_lt ((bs.drop at_).take width)
  refine Nat.lt_of_lt_of_le hlt ?_
  exact Nat.pow_le_pow_right (by decide) (List.length_take_le _ _)

theorem ofLittleEndian_littleEndian_of_lt {width n : Nat} (h : n < capacity width) :
    ofLittleEndian (littleEndian width n) = n := by
  rw [ofLittleEndian_littleEndian, Nat.mod_eq_of_lt h]

theorem window_take {bs : Bytes} {offset count n : Nat} (h : offset + count ≤ n) :
    window (bs.take n) offset count = window bs offset count := by
  unfold window
  refine congrArg Vector.ofFn (funext fun i => ?_)
  have hi : offset + i < n := by omega
  rw [List.getD_eq_getElem?_getD, List.getD_eq_getElem?_getD, List.getElem?_take_of_lt hi]

theorem window_append (front : Bytes) {offset count : Nat} (middle : Vector UInt8 count)
    (rest : Bytes) (hf : front.length = offset) :
    window (front ++ (middle.toList ++ rest)) offset count = middle := by
  refine Vector.ext fun i hi => ?_
  have hlen : i < middle.toList.length := by simpa using hi
  unfold window
  rw [Vector.getElem_ofFn, List.getD_eq_getElem?_getD, ← hf, List.getElem?_append_right (by omega),
    Nat.add_sub_cancel_left, List.getElem?_append_left hlen, List.getElem?_eq_getElem hlen]
  simp

/-! ## Blocks -/

section Blocks

variable {width : Nat}

theorem length_flatMap_encode {α : Type} {encode : α → Bytes} (he : ∀ a, (encode a).length = width)
    (as : List α) : (as.flatMap encode).length = as.length * width := by
  induction as with
  | nil => rw [List.flatMap_nil, List.length_nil, List.length_nil, Nat.zero_mul]
  | cons a as ih =>
    rw [List.flatMap_cons, List.length_append, he, ih, List.length_cons, Nat.succ_mul, Nat.add_comm]

/-- A byte of the block at a position. -/
theorem getElem?_flatMap_encode {α : Type} {encode : α → Bytes}
    (he : ∀ a, (encode a).length = width) {as : List α} {i j : Nat} {a : α} (h : as[i]? = some a)
    (hj : j < width) : (as.flatMap encode)[i * width + j]? = (encode a)[j]? := by
  induction as generalizing i with
  | nil => cases h
  | cons first as ih =>
    rw [List.flatMap_cons]
    cases i with
    | zero =>
      cases h
      rw [Nat.zero_mul, Nat.zero_add, List.getElem?_append_left (by rw [he]; exact hj)]
    | succ i =>
      have hskip : (i + 1) * width + j - width = i * width + j := by
        rw [Nat.succ_mul]
        omega
      rw [List.getElem?_append_right (by rw [he, Nat.succ_mul]; omega), he, hskip]
      exact ih h

theorem blocks_of_length_lt {bs : Bytes} (h : bs.length < width) : blocks width bs = [] := by
  unfold blocks
  rw [dif_neg]
  rintro ⟨-, hlen⟩
  rw [List.length_take] at hlen
  omega

theorem blocks_append {block : Bytes} (h : 0 < width) (hb : block.length = width) (rest : Bytes) :
    blocks width (block ++ rest) = block :: blocks width rest := by
  rw [blocks, List.take_left' hb, List.drop_left' hb, dif_pos ⟨h, hb⟩]

theorem blocks_of_le {bs : Bytes} (h : 0 < width) (hle : width ≤ bs.length) :
    blocks width bs = bs.take width :: blocks width (bs.drop width) := by
  have hblock : (bs.take width).length = width := by rw [List.length_take]; omega
  rw [← blocks_append h hblock, List.take_append_drop]

/-- Blocks that were laid end to end are found again, whatever shorter tail follows them. -/
theorem blocks_flatMap {α : Type} {encode : α → Bytes} (h : 0 < width)
    (he : ∀ a, (encode a).length = width) (as : List α) {tail : Bytes}
    (ht : tail.length < width) : blocks width (as.flatMap encode ++ tail) = as.map encode := by
  induction as with
  | nil => exact blocks_of_length_lt ht
  | cons a as ih =>
    rw [List.flatMap_cons, List.append_assoc, blocks_append h (he a), ih, List.map_cons]

/-- The blocks of a string that is made of whole ones. -/
theorem blocks_eq_map_range (h : 0 < width) {bs : Bytes} {n : Nat} (hl : bs.length = n * width) :
    blocks width bs = (List.range n).map fun i => (bs.drop (i * width)).take width := by
  induction n generalizing bs with
  | zero =>
    rw [Nat.zero_mul] at hl
    exact blocks_of_length_lt (hl ▸ h)
  | succ n ih =>
    have hn : (n + 1) * width = n * width + width := Nat.succ_mul n width
    have hrest : (bs.drop width).length = n * width := by rw [List.length_drop]; omega
    rw [blocks_of_le h (by omega), ih hrest, List.range_succ_eq_map, List.map_cons, List.map_map,
      Nat.zero_mul, List.drop_zero]
    simp only [Function.comp_def, List.drop_drop, Nat.succ_mul, Nat.add_comm]

theorem blocks_drop_width (h : 0 < width) (bs : Bytes) :
    blocks width (bs.drop width) = (blocks width bs).drop 1 := by
  by_cases hlen : width ≤ bs.length
  · rw [blocks_of_le h hlen]
    rfl
  · rw [blocks_of_length_lt (by rw [List.length_drop]; omega),
      blocks_of_length_lt (by omega)]
    rfl

theorem blocks_drop (h : 0 < width) (bs : Bytes) (k : Nat) :
    blocks width (bs.drop (k * width)) = (blocks width bs).drop k := by
  induction k with
  | zero => simp
  | succ k ih =>
    have hk : (k + 1) * width = k * width + width := Nat.succ_mul k width
    rw [hk, ← List.drop_drop, blocks_drop_width h, ih, List.drop_drop]

theorem blocks_take (h : 0 < width) (bs : Bytes) (k : Nat) :
    blocks width (bs.take (k * width)) = (blocks width bs).take k := by
  induction k generalizing bs with
  | zero => rw [Nat.zero_mul, List.take_zero, List.take_zero]; exact blocks_of_length_lt h
  | succ k ih =>
    have hk : (k + 1) * width = width + k * width := by rw [Nat.succ_mul, Nat.add_comm]
    by_cases hlen : width ≤ bs.length
    · have hblock : (bs.take width).length = width := by rw [List.length_take]; omega
      rw [hk, List.take_add, blocks_append h hblock, ih, blocks_of_le h hlen, List.take_succ_cons]
    · rw [blocks_of_length_lt (by rw [List.length_take]; omega),
        blocks_of_length_lt (by omega), List.take_nil]

/-- The block at a position, if the string does not end before it. -/
theorem getElem?_blocks (h : 0 < width) (bs : Bytes) (i : Nat) :
    (blocks width bs)[i]? =
      if (i + 1) * width ≤ bs.length then some ((bs.drop (i * width)).take width) else none := by
  have hi : (i + 1) * width = i * width + width := Nat.succ_mul i width
  have hfirst : (blocks width bs)[i]? = (blocks width (bs.drop (i * width)))[0]? := by
    rw [blocks_drop h, List.getElem?_drop, Nat.add_zero]
  rw [hfirst]
  split
  · rw [blocks_of_le h (by rw [List.length_drop]; omega), List.getElem?_cons_zero]
  · rw [blocks_of_length_lt (by rw [List.length_drop]; omega), List.getElem?_nil]

/-- Values that were written one behind the other are read again, whatever shorter tail follows
them. -/
theorem map_blocks_flatMap {α : Type} {encode : α → Bytes} {decode : Bytes → α} (h : 0 < width)
    (he : ∀ a, (encode a).length = width) (hd : ∀ a, decode (encode a) = a) (as : List α)
    {tail : Bytes} (ht : tail.length < width) :
    (blocks width (as.flatMap encode ++ tail)).map decode = as := by
  have hid : decode ∘ encode = id := funext hd
  rw [blocks_flatMap h he as ht, List.map_map, hid, List.map_id]

end Blocks

end AppearanceIndex.Bytes
