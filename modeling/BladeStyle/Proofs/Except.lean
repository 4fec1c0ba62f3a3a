/-!
# Results that were changed

A result that was changed and succeeded had succeeded before, and one that failed had failed.
-/

namespace BladeStyle

/-- A mapped computation succeeds with the image of what the computation succeeds with. -/
theorem exists_of_map_eq_ok {α β ε : Type} {f : α → β} {x : Except ε α} {b : β}
    (h : x.map f = .ok b) :
  ∃ a, x = .ok a ∧ f a = b
  := by
  cases x with
  | error e => cases h
  | ok a => exact ⟨a, rfl, Except.ok.inj h⟩

/-- A mapped computation fails as the computation itself does. -/
theorem eq_error_of_map {α β ε : Type} {f : α → β} {x : Except ε α} {e : ε}
    (h : x.map f = .error e) :
  x = .error e
  := by
  cases x with
  | error e' => rw [Except.error.inj h]
  | ok a => cases h

/-- A function on the errors leaves a result alone. -/
theorem eq_ok_of_mapError {α ε ε' : Type} {f : ε → ε'} {x : Except ε α} {a : α}
    (h : x.mapError f = .ok a) :
  x = .ok a
  := by
  cases x with
  | error e => cases h
  | ok b => rw [Except.ok.inj h]

/-- A result that was mapped comes from a computation that succeeds. -/
theorem exists_of_map_toOption_eq_some {α β ε : Type} {f : α → β} {x : Except ε α} {b : β}
    (h : x.toOption.map f = some b) :
  ∃ a, x = .ok a ∧ f a = b
  := by
  cases x with
  | error e => cases h
  | ok a => exact ⟨a, rfl, Option.some.inj h⟩

end BladeStyle
