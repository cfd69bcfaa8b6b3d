import AppearanceIndex.Files.Path

/-!
# Stems and extensions

A name with an extension is its stem, a dot and the extension, and a stem with a dot and an
extension behind it is taken apart there.
-/

namespace AppearanceIndex.FileName

theorem eq_of_split {name stem ending : List Char} (h : split name = (stem, some ending)) :
    name = stem ++ '.' :: ending := by
  have hreverse : name.reverse.takeWhile (· ≠ '.') ++ name.reverse.dropWhile (· ≠ '.') =
      name.reverse := List.takeWhile_append_dropWhile
  unfold split at h
  simp only at h
  split at h
  · cases h
  · next hn =>
    rw [not_or] at hn
    cases h
    cases hrest : name.reverse.dropWhile (· ≠ '.') with
    | nil =>
      rw [hrest, List.append_nil] at hreverse
      refine absurd ?_ hn.1
      rw [List.length_reverse, hreverse, List.length_reverse]
    | cons c rest =>
      have hc : c = '.' := by
        have hne : name.reverse.dropWhile (· ≠ '.') ≠ [] := by
          rw [hrest]
          exact List.cons_ne_nil c rest
        have hhead := List.head_dropWhile_not _ hne
        simp only [hrest, List.head_cons] at hhead
        simpa using hhead
      rw [hrest, hc] at hreverse
      have hname : name =
          rest.reverse ++ '.' :: (name.reverse.takeWhile (· ≠ '.')).reverse := by
        have hback := congrArg List.reverse hreverse
        rw [List.reverse_reverse, List.reverse_append, List.reverse_cons, List.append_assoc]
          at hback
        exact hback.symm
      have hstem : name.take (name.length -
          ((name.reverse.takeWhile (· ≠ '.')).reverse.length + 1)) = rest.reverse := by
        generalize (name.reverse.takeWhile (· ≠ '.')).reverse = ending at hname
        rw [hname]
        refine List.take_left' ?_
        simp
      rw [hstem]
      exact hname

theorem split_append {stem ending : List Char} (hs : stem ≠ []) (he : '.' ∉ ending) :
    split (stem ++ '.' :: ending) = (stem, some ending) := by
  have hending : ((stem ++ '.' :: ending).reverse.takeWhile (· ≠ '.')).reverse = ending := by
    rw [List.reverse_append, List.reverse_cons, List.append_assoc, List.takeWhile_append_of_pos]
    · simp
    · intro c hc
      have hne : c ≠ '.' := fun heq => he (heq ▸ List.mem_reverse.mp hc)
      simpa using hne
  have hstem : (stem ++ '.' :: ending).take
      ((stem ++ '.' :: ending).length - (ending.length + 1)) = stem :=
    List.take_left' (by simp)
  unfold split
  simp only [hending, hstem]
  rw [if_neg]
  rintro (hlength | hempty)
  · simp at hlength
    omega
  · exact hs hempty

theorem eq_of_stemIf? {extension name stem : String} (h : stemIf? extension name = some stem) :
    name = stem ++ "." ++ extension := by
  unfold stemIf? at h
  split at h
  · next cs ending hsplit =>
    split at h
    · next heq =>
      cases h
      refine String.toList_inj.mp ?_
      rw [eq_of_split hsplit, heq]
      simp
    · cases h
  · cases h

theorem stemIf?_append {extension stem : String} (hs : stem ≠ "")
    (he : '.' ∉ extension.toList) : stemIf? extension (stem ++ "." ++ extension) = some stem := by
  have hname : (stem ++ "." ++ extension).toList = stem.toList ++ '.' :: extension.toList := by
    simp
  have hne : stem.toList ≠ [] := fun hnil => hs (String.toList_inj.mp (by simpa using hnil))
  unfold stemIf?
  rw [hname, split_append hne he]
  simp

end AppearanceIndex.FileName
