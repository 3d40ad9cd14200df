set_option autoImplicit false

namespace LetReturn.Integers

def natural (digits : List Char) : Nat := Nat.ofDigitChars 10 digits 0

def unsigned? (text : List Char) : Option Nat :=
  if text.isEmpty || !text.all Char.isDigit then none else some (natural text)

def signed? : List Char → Option Int
  | '+' :: digits => (unsigned? digits).map Int.ofNat
  | '-' :: digits => (unsigned? digits).map fun n => -Int.ofNat n
  | digits => (unsigned? digits).map Int.ofNat

/-- The signed 64-bit value of a decimal text. -/
def int64? (text : String) : Option Int64 :=
  match signed? text.toList with
  | some v => if Int64.minValue.toInt ≤ v ∧ v ≤ Int64.maxValue.toInt then some (Int64.ofInt v) else none
  | none => none

theorem int64?_toInt {text : String} {v : Int64} (h : int64? text = some v) :
    signed? text.toList = some v.toInt := by
  unfold int64? at h
  split at h
  · rename_i n hn
    split at h
    · rename_i hb
      cases h
      rw [hn, Int64.toInt_ofInt_of_le hb.1 (Int.lt_add_one_of_le hb.2)]
    · simp at h
  · simp at h

end LetReturn.Integers
