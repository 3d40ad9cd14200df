import LetReturn.JsonNumbers
import Mathlib.Tactic.Common

set_option autoImplicit false

/-!
# JSON grammar

Which texts are JSON, stated without a reader. Each rule relates what is written, the text in front
of which it stands, and the rest of that text behind it. A string is kept as its pieces, since an
escaped surrogate without its other half stands for no character (`chars?`).
-/
namespace LetReturn.JsonGrammar
open JsonNumbers

def Blank (c : Char) : Prop := c = ' ' ∨ c = '\t' ∨ c = '\n' ∨ c = '\r'

instance : DecidablePred Blank := fun _ => inferInstanceAs (Decidable (_ ∨ _))

inductive Blanks : List Char → List Char → Prop where
  | none {rest : List Char} : Blanks rest rest
  | cons {c : Char} {text rest : List Char} (hc : Blank c) (tail : Blanks text rest) :
      Blanks (c :: text) rest

/-- A character, or a number of four hexadecimal digits that an escape gives. -/
inductive Piece where
  | char (c : Char)
  | unit (n : ℕ)
  deriving DecidableEq, Repr

/-- The letters behind a backslash and what they stand for. -/
def letters : List (Char × Char) :=
  [('"', '"'), ('\\', '\\'), ('/', '/'), ('b', '\x08'), ('f', '\x0c'), ('n', '\n'), ('r', '\r'),
    ('t', '\t')]

def Hex (c : Char) (d : ℕ) : Prop := d < 16 ∧ (c = d.digitChar ∨ c = d.digitChar.toUpper)

instance (c : Char) (d : ℕ) : Decidable (Hex c d) := inferInstanceAs (Decidable (_ ∧ _))

inductive CodeUnit : ℕ → List Char → List Char → Prop where
  | mk {a b c d : Char} {i j k l : ℕ} {rest : List Char} (ha : Hex a i) (hb : Hex b j)
      (hc : Hex c k) (hd : Hex d l) :
      CodeUnit (((i * 16 + j) * 16 + k) * 16 + l) (a :: b :: c :: d :: rest) rest

/-- The pieces of a string up to its closing quote. -/
inductive Pieces : List Piece → List Char → List Char → Prop where
  | close {rest : List Char} : Pieces [] ('"' :: rest) rest
  | raw {c : Char} {ps : List Piece} {text rest : List Char} (hq : c ≠ '"') (hb : c ≠ '\\')
      (hc : 0x20 ≤ c.toNat) (tail : Pieces ps text rest) : Pieces (.char c :: ps) (c :: text) rest
  | letter {l c : Char} {ps : List Piece} {text rest : List Char} (hl : (l, c) ∈ letters)
      (tail : Pieces ps text rest) : Pieces (.char c :: ps) ('\\' :: l :: text) rest
  | unit {n : ℕ} {ps : List Piece} {text behind rest : List Char} (hu : CodeUnit n text behind)
      (tail : Pieces ps behind rest) : Pieces (.unit n :: ps) ('\\' :: 'u' :: text) rest

/-- The first half of a surrogate pair. -/
def High (n : ℕ) : Prop := 0xD800 ≤ n ∧ n < 0xDC00

/-- The second half of a surrogate pair. -/
def Low (n : ℕ) : Prop := 0xDC00 ≤ n ∧ n < 0xE000

instance : DecidablePred High := fun _ => inferInstanceAs (Decidable (_ ∧ _))

instance : DecidablePred Low := fun _ => inferInstanceAs (Decidable (_ ∧ _))

/-- Each half of a pair carries ten bits of a code point above the first 65536. -/
def joined (high low : ℕ) : Char :=
  Char.ofNat (0x10000 + (high - 0xD800) * 0x400 + (low - 0xDC00))

/-- The characters that pieces stand for: of surrogates only a high one with a low one behind it
stands for any. -/
def chars? : List Piece → Option (List Char)
  | [] => some []
  | .char c :: ps => (chars? ps).map (c :: ·)
  | .unit n :: ps =>
    if Low n then none
    else if High n then
      match ps with
      | .unit m :: ps => if Low m then (chars? ps).map (joined n m :: ·) else none
      | _ => none
    else (chars? ps).map (Char.ofNat n :: ·)

def Digits (ds text rest : List Char) : Prop :=
  ds ≠ [] ∧ (∀ c ∈ ds, c.isDigit = true) ∧ text = ds ++ rest

/-- No other digit follows a leading zero. -/
def Whole (ds text rest : List Char) : Prop :=
  Digits ds text rest ∧ (ds.head? = some '0' → ds = ['0'])

inductive Minus : Bool → List Char → List Char → Prop where
  | absent {rest : List Char} : Minus false rest rest
  | present {rest : List Char} : Minus true ('-' :: rest) rest

inductive Sign : Bool → List Char → List Char → Prop where
  | absent {rest : List Char} : Sign false rest rest
  | plus {rest : List Char} : Sign false ('+' :: rest) rest
  | minus {rest : List Char} : Sign true ('-' :: rest) rest

inductive Fraction : Option (List Char) → List Char → List Char → Prop where
  | absent {rest : List Char} : Fraction none rest rest
  | present {ds text rest : List Char} (hd : Digits ds text rest) :
      Fraction (some ds) ('.' :: text) rest

inductive Exponent : Option (Bool × List Char) → List Char → List Char → Prop where
  | absent {rest : List Char} : Exponent none rest rest
  | present {e : Char} {negative : Bool} {ds text behind rest : List Char}
      (he : e = 'e' ∨ e = 'E') (hs : Sign negative text behind) (hd : Digits ds behind rest) :
      Exponent (some (negative, ds)) (e :: text) rest

inductive Number : Numeral → List Char → List Char → Prop where
  | mk {negative : Bool} {ds : List Char} {f : Option (List Char)}
      {e : Option (Bool × List Char)} {text t1 t2 t3 rest : List Char}
      (hm : Minus negative text t1) (hw : Whole ds t1 t2) (hf : Fraction f t2 t3)
      (he : Exponent e t3 rest) : Number ⟨negative, ds, f, e⟩ text rest

inductive Json where
  | null
  | flag (b : Bool)
  | number (n : Numeral)
  | string (s : List Piece)
  | list (elements : List Json)
  | object (members : List (List Piece × Json))

inductive Part where
  | value (v : Json)
  | element (v : Json)
  | member (m : List Piece × Json)
  | elements (vs : List Json)
  | members (ms : List (List Piece × Json))

/-- An element is a value with blanks around it; elements and members are separated by commas. -/
inductive Written : Part → List Char → List Char → Prop where
  | null {rest : List Char} : Written (.value .null) ('n' :: 'u' :: 'l' :: 'l' :: rest) rest
  | yes {rest : List Char} : Written (.value (.flag true)) ('t' :: 'r' :: 'u' :: 'e' :: rest) rest
  | no {rest : List Char} :
      Written (.value (.flag false)) ('f' :: 'a' :: 'l' :: 's' :: 'e' :: rest) rest
  | number {n : Numeral} {text rest : List Char} (hn : Number n text rest) :
      Written (.value (.number n)) text rest
  | string {s : List Piece} {text rest : List Char} (hs : Pieces s text rest) :
      Written (.value (.string s)) ('"' :: text) rest
  | emptyList {text rest : List Char} (hb : Blanks text (']' :: rest)) :
      Written (.value (.list [])) ('[' :: text) rest
  | list {vs : List Json} {text rest : List Char} (h : Written (.elements vs) text (']' :: rest)) :
      Written (.value (.list vs)) ('[' :: text) rest
  | emptyObject {text rest : List Char} (hb : Blanks text ('}' :: rest)) :
      Written (.value (.object [])) ('{' :: text) rest
  | object {ms : List (List Piece × Json)} {text rest : List Char}
      (h : Written (.members ms) text ('}' :: rest)) :
      Written (.value (.object ms)) ('{' :: text) rest
  | element {v : Json} {text front behind rest : List Char} (hf : Blanks text front)
      (h : Written (.value v) front behind) (hb : Blanks behind rest) :
      Written (.element v) text rest
  | member {k : List Piece} {v : Json} {text inside behind after rest : List Char}
      (hf : Blanks text ('"' :: inside)) (hk : Pieces k inside behind)
      (hb : Blanks behind (':' :: after)) (h : Written (.element v) after rest) :
      Written (.member (k, v)) text rest
  | lastElement {v : Json} {text rest : List Char} (h : Written (.element v) text rest) :
      Written (.elements [v]) text rest
  | moreElements {v : Json} {vs : List Json} {text after rest : List Char}
      (h : Written (.element v) text (',' :: after)) (tail : Written (.elements vs) after rest) :
      Written (.elements (v :: vs)) text rest
  | lastMember {m : List Piece × Json} {text rest : List Char} (h : Written (.member m) text rest) :
      Written (.members [m]) text rest
  | moreMembers {m : List Piece × Json} {ms : List (List Piece × Json)}
      {text after rest : List Char} (h : Written (.member m) text (',' :: after))
      (tail : Written (.members ms) after rest) : Written (.members (m :: ms)) text rest

/-- Every string and every key in it stands for characters. -/
inductive Paired : Json → Prop where
  | null : Paired .null
  | flag (b : Bool) : Paired (.flag b)
  | number (n : Numeral) : Paired (.number n)
  | string {s : List Piece} (hs : (chars? s).isSome) : Paired (.string s)
  | list {vs : List Json} (h : ∀ v ∈ vs, Paired v) : Paired (.list vs)
  | object {ms : List (List Piece × Json)} (hk : ∀ m ∈ ms, (chars? m.1).isSome)
      (h : ∀ m ∈ ms, Paired m.2) : Paired (.object ms)

end LetReturn.JsonGrammar
