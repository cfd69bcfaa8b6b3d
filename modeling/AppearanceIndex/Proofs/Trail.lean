/-!
# Trails

A machine makes a move if it can, and may give something out with it. A `Trail` is a sequence of
moves from one state to another, each kept together with the states around it, so that what was
done in which state can be read off it. `Trail.outputs` is what was given out.
-/

namespace AppearanceIndex

/-- One move, what was given out in it, and the states before and after. -/
structure Event (State Move Output : Type) where
  before : State
  move : Move
  output : Option Output
  after : State

/-- The moves of a machine from one state to another, oldest first. -/
inductive Trail {State Move Output : Type} (step : State → Move → Option (Option Output × State))
    (s : State) : List (Event State Move Output) → State → Prop where
  | start : Trail step s [] s
  | step {events : List (Event State Move Output)} {t u : State} {move : Move}
      {output : Option Output} :
      Trail step s events t → step t move = some (output, u) →
      Trail step s (events ++ [⟨t, move, output, u⟩]) u

namespace Trail

variable {State Move Output : Type} {machine : State → Move → Option (Option Output × State)}
  {s t u : State} {events more : List (Event State Move Output)}

/-- What was given out, oldest first. -/
def outputs (events : List (Event State Move Output)) : List Output := events.filterMap (·.output)

@[simp] theorem outputs_append (events more : List (Event State Move Output)) :
    outputs (events ++ more) = outputs events ++ outputs more := List.filterMap_append

@[simp] theorem outputs_single (e : Event State Move Output) : outputs [e] = e.output.toList := by
  cases h : e.output <;> simp [outputs, h]

theorem trans (h : Trail machine s events t) (h' : Trail machine t more u) :
    Trail machine s (events ++ more) u := by
  induction h' with
  | start => simpa using h
  | step _ hs ih =>
    rw [← List.append_assoc]
    exact .step ih hs

/-- The moves of a list one after another; one that is not possible is passed over. -/
def follow (machine : State → Move → Option (Option Output × State)) (s : State) :
    List Move → List (Event State Move Output) × State
  | [] => ([], s)
  | move :: moves =>
    match machine s move with
    | none => follow machine s moves
    | some (output, t) =>
      let (events, u) := follow machine t moves
      (⟨s, move, output, t⟩ :: events, u)

theorem trail_follow (machine : State → Move → Option (Option Output × State)) (s : State)
    (moves : List Move) :
    Trail machine s (follow machine s moves).1 (follow machine s moves).2 := by
  induction moves generalizing s with
  | nil => exact .start
  | cons move moves ih =>
    unfold follow
    cases hs : machine s move with
    | none => exact ih s
    | some outcome =>
      obtain ⟨output, t⟩ := outcome
      have hfirst : Trail machine s [⟨s, move, output, t⟩] t := .step .start hs
      exact hfirst.trans (ih t)

end Trail

end AppearanceIndex
