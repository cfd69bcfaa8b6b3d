import AppearanceIndex.Source.Seekable

/-!
# Readings and the cursor

A reading starts wherever the last one left the cursor. `Reading.Gives` says of a reading that its
result does not depend on where that is, and `Reading.Steady` that there is such a result. A read
behind its own seek is steady over every source. Over bytes in memory it gives the bytes at the
offset, or is refused if they do not reach that far.
-/

namespace AppearanceIndex

namespace Reading

variable {α β : Type} {reading other : Reading α} {f : α → Reading β} {a : α} {e : Error}
  {result : Except Error β}

/-- The reading has this result wherever the cursor is. -/
def Gives (reading : Reading α) (result : Except Error α) : Prop :=
  ∀ cursor, (reading.run cursor).1 = result

theorem gives_pure (a : α) : (pure a : Reading α).Gives (.ok a) := fun _ => rfl

theorem gives_throw (e : Error) : (throw e : Reading α).Gives (.error e) := fun _ => rfl

theorem gives_lift (result : Except Error α) : Gives (ExceptT.mk (pure result)) result :=
  fun _ => rfl

theorem Gives.eq_of_run {cursor next : Nat} {b : α} (h : reading.Gives (.ok a))
    (hr : reading.run cursor = (.ok b, next)) : b = a := by
  have hresult := h cursor
  rw [hr] at hresult
  exact Except.ok.inj hresult

theorem Gives.result_eq {first second : Except Error α} (h : reading.Gives first)
    (h' : reading.Gives second) : first = second := (h 0).symm.trans (h' 0)

theorem Gives.bind (h : reading.Gives (.ok a)) (hf : (f a).Gives result) :
    (reading >>= f).Gives result := by
  intro cursor
  rw [run_bind]
  have hr := h cursor
  cases hrun : reading.run cursor with
  | mk out next =>
    rw [hrun] at hr
    cases hr
    exact hf next

theorem Gives.bind_error (h : reading.Gives (.error e)) : (reading >>= f).Gives (.error e) := by
  intro cursor
  rw [run_bind]
  have hr := h cursor
  cases hrun : reading.run cursor with
  | mk out next =>
    rw [hrun] at hr
    cases hr
    rfl

/-- What comes of the reading is the same wherever the cursor is. -/
def Steady (reading : Reading α) : Prop := ∃ result, reading.Gives result

theorem steady_pure (a : α) : (pure a : Reading α).Steady := ⟨_, gives_pure a⟩

theorem steady_lift (result : Except Error α) : Steady (ExceptT.mk (pure result)) :=
  ⟨_, gives_lift result⟩

theorem Steady.bind (h : reading.Steady) (hf : ∀ a, (f a).Steady) : (reading >>= f).Steady := by
  obtain ⟨result, hresult⟩ := h
  cases result with
  | ok a =>
    obtain ⟨out, hout⟩ := hf a
    exact ⟨out, hresult.bind hout⟩
  | error e => exact ⟨_, hresult.bind_error⟩

theorem Steady.ite {c : Prop} [Decidable c] (h : reading.Steady) (ho : other.Steady) :
    (if c then reading else other).Steady := by
  split
  · exact h
  · exact ho

/-- A check that refuses, or else lets the rest go on. -/
theorem steady_unless {c : Prop} [Decidable c] (e : Error) (h : reading.Steady) :
    Steady (do
      if c then throw e
      reading) := by
  by_cases hc : c
  · rw [if_pos hc]
    exact ⟨_, (gives_throw e).bind_error⟩
  · rw [if_neg hc]
    exact h

end Reading

/-! ## Any source -/

namespace SeekableSource

section

variable {source : SeekableSource} {offset count cursor next : Nat} {e : IoError} {bs : Bytes}

theorem seekTo_of_ok (h : source.seek offset = .ok ()) (operation : Operation) :
    (source.seekTo operation offset).run cursor = (.ok (), offset) := by
  show source.seekTo operation offset cursor = _
  unfold seekTo
  rw [h]

theorem seekTo_of_error (h : source.seek offset = .error e) (operation : Operation) :
    (source.seekTo operation offset).run cursor = (.error (.io operation e), cursor) := by
  show source.seekTo operation offset cursor = _
  unfold seekTo
  rw [h]

theorem readWith_of_ok (h : source.read cursor count = (.ok bs, next)) (refuse : IoError → Error) :
    (source.readWith refuse count).run cursor = (.ok bs, next) := by
  show source.readWith refuse count cursor = _
  unfold readWith
  rw [h]

theorem readWith_of_error (h : source.read cursor count = (.error e, next))
    (refuse : IoError → Error) :
    (source.readWith refuse count).run cursor = (.error (refuse e), next) := by
  show source.readWith refuse count cursor = _
  unfold readWith
  rw [h]

theorem readNext_of_ok (h : source.read cursor count = (.ok bs, next)) (operation : Operation) :
    (source.readNext operation count).run cursor = (.ok bs, next) :=
  readWith_of_ok h (.io operation)

theorem readNext_of_error (h : source.read cursor count = (.error e, next))
    (operation : Operation) :
    (source.readNext operation count).run cursor = (.error (.io operation e), next) :=
  readWith_of_error h (.io operation)

/-- A seek that succeeds has put the cursor where the read begins. -/
theorem gives_of_seek (h : source.seek offset = .ok ()) (operation : Operation)
    (refuse : IoError → Error) (count : Nat) :
    Reading.Gives (do source.seekTo operation offset; source.readWith refuse count)
      ((source.readWith refuse count).run offset).1 := by
  intro cursor
  rw [Reading.run_bind, seekTo_of_ok h]

/-- A seek that fails ends the reading. -/
theorem gives_of_seek_error (h : source.seek offset = .error e) (operation : Operation)
    (refuse : IoError → Error) (count : Nat) :
    Reading.Gives (do source.seekTo operation offset; source.readWith refuse count)
      (.error (.io operation e)) := by
  intro cursor
  rw [Reading.run_bind, seekTo_of_error h]

end

variable (source : SeekableSource)

theorem steady_seekTo_readWith (operation : Operation) (refuse : IoError → Error)
    (offset count : Nat) :
    Reading.Steady (do source.seekTo operation offset; source.readWith refuse count) := by
  cases hseek : source.seek offset with
  | error e => exact ⟨_, gives_of_seek_error hseek operation refuse count⟩
  | ok _ => exact ⟨_, gives_of_seek hseek operation refuse count⟩

/-- The same with more to do behind it. -/
theorem steady_seekTo_readWith_bind {α : Type} {f : Bytes → Reading α} (operation : Operation)
    (refuse : IoError → Error) (offset count : Nat) (hf : ∀ bs, (f bs).Steady) :
    Reading.Steady
      (do
        source.seekTo operation offset
        let bs ← source.readWith refuse count
        f bs) := by
  have hboth := (source.steady_seekTo_readWith operation refuse offset count).bind hf
  rw [bind_assoc] at hboth
  exact hboth

theorem steady_seekEnd (operation : Operation) : (source.seekEnd operation).Steady := by
  cases hsize : source.size with
  | ok size =>
    refine ⟨.ok size, fun cursor => ?_⟩
    show (source.seekEnd operation cursor).1 = _
    simp only [seekEnd, hsize]
  | error e =>
    refine ⟨.error (.io operation e), fun cursor => ?_⟩
    show (source.seekEnd operation cursor).1 = _
    simp only [seekEnd, hsize]

end SeekableSource

/-! ## Bytes in memory -/

namespace SeekableSource

variable {bs : Bytes} {offset count : Nat}

theorem read_ofBytes_of_le (h : offset + count ≤ bs.length) :
    (ofBytes bs).read offset count = (.ok ((bs.drop offset).take count), offset + count) := by
  have hsize : count = 0 ∨ offset + count ≤ bs.toArray.size := .inr (by simpa using h)
  show (if count = 0 ∨ offset + count ≤ bs.toArray.size then _ else _) = _
  rw [if_pos hsize, PositionalSource.slice_toArray]

theorem read_ofBytes_of_short (h : bs.length < offset + count) (hc : count ≠ 0) :
    (ofBytes bs).read offset count = (.error .unfilled, max offset bs.toArray.size) := by
  have hsize : ¬ (count = 0 ∨ offset + count ≤ bs.toArray.size) := by
    rintro (hzero | hle)
    · exact hc hzero
    · rw [List.size_toArray] at hle
      omega
  exact if_neg hsize

/-- A seek and the read behind it give the bytes at the offset. -/
theorem gives_seekTo_readWith (h : offset + count ≤ bs.length) (operation : Operation)
    (refuse : IoError → Error) :
    Reading.Gives (do (ofBytes bs).seekTo operation offset; (ofBytes bs).readWith refuse count)
      (.ok ((bs.drop offset).take count)) := by
  have hgives := gives_of_seek (show (ofBytes bs).seek offset = .ok () from rfl) operation refuse
    count
  rwa [readWith_of_ok (read_ofBytes_of_le h) refuse] at hgives

/-- The same with more to do behind it. -/
theorem gives_seekTo_readWith_bind {α : Type} {f : Bytes → Reading α} {result : Except Error α}
    (h : offset + count ≤ bs.length) (operation : Operation) (refuse : IoError → Error)
    (hf : (f ((bs.drop offset).take count)).Gives result) :
    Reading.Gives
      (do
        (ofBytes bs).seekTo operation offset
        let out ← (ofBytes bs).readWith refuse count
        f out) result := by
  have hboth := (gives_seekTo_readWith h operation refuse).bind hf
  rw [bind_assoc] at hboth
  exact hboth

/-- A read beyond the end ends what it is part of. -/
theorem gives_seekTo_readWith_short {α : Type} {f : Bytes → Reading α}
    (h : bs.length < offset + count) (hc : count ≠ 0) (operation : Operation)
    (refuse : IoError → Error) :
    Reading.Gives
      (do
        (ofBytes bs).seekTo operation offset
        let out ← (ofBytes bs).readWith refuse count
        f out) (.error (refuse .unfilled)) := by
  have hgives := gives_of_seek (show (ofBytes bs).seek offset = .ok () from rfl) operation refuse
    count
  rw [readWith_of_error (read_ofBytes_of_short h hc) refuse] at hgives
  have hboth : Reading.Gives _ (.error (refuse .unfilled)) := hgives.bind_error (f := f)
  rw [bind_assoc] at hboth
  exact hboth

theorem readWith_ofBytes_eq_ok {refuse : IoError → Error} {cursor next : Nat} {out : Bytes}
    (h : ((ofBytes bs).readWith refuse count).run cursor = (.ok out, next)) (hc : 0 < count) :
    cursor + count ≤ bs.length ∧ out = (bs.drop cursor).take count := by
  by_cases hle : cursor + count ≤ bs.length
  · rw [readWith_of_ok (read_ofBytes_of_le hle) refuse] at h
    cases h
    exact ⟨hle, rfl⟩
  · have hread := read_ofBytes_of_short (Nat.lt_of_not_le hle) (Nat.ne_of_gt hc)
    rw [readWith_of_error hread refuse] at h
    cases h

theorem gives_seekEnd (operation : Operation) :
    ((ofBytes bs).seekEnd operation).Gives (.ok bs.length) := by
  intro cursor
  show Except.ok bs.toArray.size = _
  simp

end SeekableSource

end AppearanceIndex
