set_option autoImplicit false

namespace LetReturn.Utf8

abbrev Bytes := List UInt8

def encode (text : List Char) : Bytes := text.flatMap String.utf8EncodeChar

def ofString (text : String) : Bytes := encode text.toList

theorem encode_append (a b : List Char) : encode (a ++ b) = encode a ++ encode b := by
  simp [encode]

theorem ofString_append (a b : String) : ofString (a ++ b) = ofString a ++ ofString b := by
  simp [ofString, encode_append]

/-- The text of well-formed bytes. -/
def decode? (bytes : Bytes) : Option String := String.fromUTF8? bytes.toByteArray

/-- What a first byte announces: how many bytes follow it, the range of the first of these, and what
is taken off to get the leading bits of the code point. -/
structure Lead where
  follow : Nat
  low : UInt8
  high : UInt8
  base : Nat
  deriving DecidableEq, Repr

def lead? (b : UInt8) : Option Lead :=
  if b < 0xC2 then none
  else if b ≤ 0xDF then some ⟨1, 0x80, 0xBF, 0xC0⟩
  else if b = 0xE0 then some ⟨2, 0xA0, 0xBF, 0xE0⟩
  else if b = 0xED then some ⟨2, 0x80, 0x9F, 0xE0⟩
  else if b ≤ 0xEF then some ⟨2, 0x80, 0xBF, 0xE0⟩
  else if b = 0xF0 then some ⟨3, 0x90, 0xBF, 0xF0⟩
  else if b ≤ 0xF3 then some ⟨3, 0x80, 0xBF, 0xF0⟩
  else if b = 0xF4 then some ⟨3, 0x80, 0x8F, 0xF0⟩
  else none

/-- The bytes in front that continue a character which still needs `n` bytes. -/
def trail (low high : UInt8) : Nat → Bytes → Bytes
  | n + 1, b :: rest => if low ≤ b ∧ b ≤ high then b :: trail 0x80 0xBF n rest else []
  | _, _ => []

def assemble (first : Nat) (tail : Bytes) : Char :=
  Char.ofNat (tail.foldl (fun n b => n * 64 + (b.toNat - 0x80)) first)

def replacement : Char := '\uFFFD'

/-- The character for the bytes in front, the first of which is `b`, and how many of the bytes
behind it belong to it. -/
def front (b : UInt8) (rest : Bytes) : Char × Nat :=
  if b < 0x80 then (Char.ofUInt8 b, 0)
  else
    match lead? b with
    | none => (replacement, 0)
    | some lead =>
      let tail := trail lead.low lead.high lead.follow rest
      if tail.length = lead.follow then (assemble (b.toNat - lead.base) tail, tail.length)
      else (replacement, tail.length)

def decodeLossy (bytes : Bytes) : List Char :=
  match bytes with
  | [] => []
  | b :: rest => (front b rest).1 :: decodeLossy (rest.drop (front b rest).2)
termination_by bytes.length
decreasing_by
  simp only [List.length_cons, List.length_drop]
  omega

end LetReturn.Utf8
