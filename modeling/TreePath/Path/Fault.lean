namespace TreePath

inductive Reason where
  | unexpected (c : Char)
  | tooManyDots
  | dotsNotAlone
  | indexOutOfRange
  | mismatched (c : Char)
  | unterminated (c : Char)
  | unterminatedQuote
  | invalidEscape
  | incompleteUnicode
  | invalidUnicode
  | loneLowSurrogate
  | missingLowSurrogate
  | invalidLowSurrogate
  | emptySelector
  | expectedBraces
  | unknownTag (name : String)
  | emptyMember
  | tooManyBounds
  | boundNotInteger (text : String)
  | boundOutOfRange
  | zeroStep
  | emptyEntry
  | entryWithoutColon
  | missingValue
  | trailingAfterQuery
  | invalidJson
  | trailingAfterQuoted
  | notPredicate
  deriving DecidableEq, Repr

namespace Reason

def message : Reason → String
  | unexpected c => "unexpected character '" ++ c.toString ++ "'"
  | tooManyDots => "too many dots in a row"
  | dotsNotAlone => "dot markers must stand alone"
  | indexOutOfRange => "index out of range"
  | mismatched c => "mismatched '" ++ c.toString ++ "'"
  | unterminated c => "unterminated '" ++ c.toString ++ "'"
  | unterminatedQuote => "unterminated quoted key"
  | invalidEscape => "invalid escape sequence"
  | incompleteUnicode => "incomplete unicode escape sequence"
  | invalidUnicode => "invalid unicode escape sequence"
  | loneLowSurrogate => "low surrogate without preceding high surrogate"
  | missingLowSurrogate => "high surrogate not followed by low surrogate escape sequence"
  | invalidLowSurrogate => "high surrogate not followed by valid low surrogate"
  | emptySelector => "empty bracket selector"
  | expectedBraces => "expected '\x7b...\x7d' after '?'"
  | unknownTag name => "unknown tag '$" ++ name ++ "'"
  | emptyMember => "empty member in selector list"
  | tooManyBounds => "slice takes at most three bounds"
  | boundNotInteger text => "slice bound '" ++ text ++ "' is not an integer"
  | boundOutOfRange => "slice bound out of range"
  | zeroStep => "slice step cannot be zero"
  | emptyEntry => "empty predicate entry"
  | entryWithoutColon => "predicate entry needs 'key: value'"
  | missingValue => "missing predicate value"
  | trailingAfterQuery => "trailing characters after nested query"
  | invalidJson => "invalid JSON value"
  | trailingAfterQuoted => "trailing characters after quoted value"
  | notPredicate => "not a predicate"

end Reason

/-- A reason with the position it applies to, counted in characters from the start of the text. -/
structure Fault where
  reason : Reason
  position : Nat
  deriving DecidableEq, Repr

/-- A step that succeeds had a result to go on with. -/
theorem Fault.bind_eq_ok {α β : Type} {x : Except Fault α} {f : α → Except Fault β} {b : β}
    (h : (x >>= f) = .ok b) : ∃ a, x = .ok a ∧ f a = .ok b := by
  cases x with
  | error fault => cases h
  | ok a => exact ⟨a, rfl, h⟩

theorem Fault.bind_of_ok {α β : Type} {x : Except Fault α} {a : α} (h : x = .ok a)
    (f : α → Except Fault β) : x >>= f = f a := by
  rw [h]
  rfl

theorem Fault.pure_eq_ok {α : Type} {a b : α} (h : (pure a : Except Fault α) = .ok b) : a = b :=
  Except.ok.inj h

theorem Fault.map_eq_ok {α β : Type} {x : Except Fault α} {f : α → β} {b : β}
    (h : x.map f = .ok b) : ∃ a, x = .ok a ∧ f a = b := by
  cases x with
  | error fault => cases h
  | ok a => exact ⟨a, rfl, Except.ok.inj h⟩

theorem Fault.map_bind {α β γ : Type} (x : Except Fault α) (f : α → Except Fault β) (g : β → γ) :
    (x >>= f).map g = x >>= fun a => (f a).map g := by
  cases x <;> rfl

end TreePath
