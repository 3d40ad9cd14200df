set_option autoImplicit false

namespace LetReturn.JsonReading

/-- The text breaks the rules of JSON, or it ends too early, or it is well formed so far and says
something other than what was asked for. -/
inductive Fault where
  | malformed | truncated | mismatch
  deriving DecidableEq, Repr

abbrev Outcome (α : Type) := Except Fault α

theorem bind_eq_ok {α β : Type} {x : Outcome α} {f : α → Outcome β} {b : β} :
    (x >>= f) = .ok b ↔ ∃ a, x = .ok a ∧ f a = .ok b := by
  cases x with
  | error e => simp [bind, Except.bind]
  | ok a => simp [bind, Except.bind]

theorem map_eq_ok {α β : Type} {x : Outcome α} {f : α → β} {b : β} :
    x.map f = .ok b ↔ ∃ a, x = .ok a ∧ f a = b := by
  cases x with
  | error e => simp [Except.map]
  | ok a => simp [Except.map]

/-- A reading that takes at least one character. -/
structure Reader (α : Type) where
  read : List Char → Outcome (α × List Char)
  shorter : ∀ {text : List Char} {value : α} {rest : List Char},
    read text = .ok (value, rest) → rest.length < text.length

def isBlank (c : Char) : Bool := c == ' ' || c == '\t' || c == '\n' || c == '\r'

def skipBlanks (text : List Char) : List Char := text.dropWhile isBlank

theorem skipBlanks_length_le (text : List Char) : (skipBlanks text).length ≤ text.length :=
  (List.dropWhile_sublist _).length_le

theorem skipBlanks_idem (text : List Char) : skipBlanks (skipBlanks text) = skipBlanks text := by
  induction text with
  | nil => rfl
  | cons c text ih =>
    by_cases h : isBlank c = true
    · simpa [skipBlanks, List.dropWhile_cons, h] using ih
    · simp [skipBlanks, h]

def word : List Char → List Char → Outcome (List Char)
  | [], text => .ok text
  | _ :: _, [] => .error .truncated
  | letter :: letters, c :: text => if c = letter then word letters text else .error .malformed

theorem word_eq_ok {letters text rest : List Char} :
    word letters text = .ok rest ↔ text = letters ++ rest := by
  induction letters generalizing text with
  | nil => simp [word]
  | cons letter letters ih =>
    cases text with
    | nil => simp [word]
    | cons c text =>
      by_cases h : c = letter
      · simp [word, h, ih]
      · simp [word, h]

def mark (expected : Char) (text : List Char) : Outcome (List Char) :=
  match skipBlanks text with
  | [] => .error .truncated
  | c :: rest => if c = expected then .ok rest else .error .malformed

theorem mark_shorter {expected : Char} {text rest : List Char}
    (h : mark expected text = .ok rest) : rest.length < text.length := by
  have hb := skipBlanks_length_le text
  unfold mark at h
  split at h
  · cases h
  · rename_i c more he
    split at h
    · cases h
      rw [he] at hb
      exact hb
    · cases h

end LetReturn.JsonReading
