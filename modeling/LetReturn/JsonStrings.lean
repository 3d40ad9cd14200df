import LetReturn.JsonReading

set_option autoImplicit false

namespace LetReturn.JsonStrings
open JsonReading

def hexValue? (c : Char) : Option Nat :=
  if '0' ≤ c ∧ c ≤ '9' then some (c.toNat - '0'.toNat)
  else if 'a' ≤ c ∧ c ≤ 'f' then some (c.toNat - 'a'.toNat + 10)
  else if 'A' ≤ c ∧ c ≤ 'F' then some (c.toNat - 'A'.toNat + 10)
  else none

def byteSize (text : List Char) : Nat := (String.ofList text).utf8ByteSize

/-- Four hexadecimal digits. Where fewer than four bytes are left, the text ends too early. -/
def codeUnit : List Char → Outcome (Nat × List Char)
  | a :: b :: c :: d :: rest =>
    match hexValue? a, hexValue? b, hexValue? c, hexValue? d with
    | some a, some b, some c, some d => .ok (((a * 16 + b) * 16 + c) * 16 + d, rest)
    | _, _, _, _ => .error .malformed
  | text => .error (if byteSize text < 4 then .truncated else .malformed)

def isHighSurrogate (n : Nat) : Bool := 0xD800 ≤ n && n ≤ 0xDBFF
def isLowSurrogate (n : Nat) : Bool := 0xDC00 ≤ n && n ≤ 0xDFFF

def ofPair (high low : Nat) : Char :=
  Char.ofNat ((high - 0xD800) * 0x400 + (low - 0xDC00) + 0x10000)

def exactly (expected : Char) : List Char → Outcome (List Char)
  | [] => .error .truncated
  | c :: rest => if c = expected then .ok rest else .error .malformed

def numbered (text : List Char) : Outcome (Char × List Char) := do
  let (unit, rest) ← codeUnit text
  if isLowSurrogate unit then .error .malformed
  else if isHighSurrogate unit then
    let rest ← exactly '\\' rest
    let rest ← exactly 'u' rest
    let (low, rest) ← codeUnit rest
    if isLowSurrogate low then .ok (ofPair unit low, rest) else .error .malformed
  else .ok (Char.ofNat unit, rest)

def lettered? : Char → Option Char
  | '"' => some '"'
  | '\\' => some '\\'
  | '/' => some '/'
  | 'b' => some '\x08'
  | 'f' => some '\x0c'
  | 'n' => some '\n'
  | 'r' => some '\r'
  | 't' => some '\t'
  | _ => none

def escape : List Char → Outcome (Char × List Char)
  | [] => .error .truncated
  | c :: rest =>
    match lettered? c with
    | some value => .ok (value, rest)
    | none => if c = 'u' then numbered rest else .error .malformed

/-- An escape of which nothing is asked but that it is there. -/
def passEscape : List Char → Outcome (List Char)
  | [] => .error .truncated
  | c :: rest =>
    match lettered? c with
    | some _ => .ok rest
    | none => if c = 'u' then (codeUnit rest).map (·.2) else .error .malformed

theorem codeUnit_shorter {text rest : List Char} {n : Nat} (h : codeUnit text = .ok (n, rest)) :
    rest.length < text.length := by
  unfold codeUnit at h
  split at h
  · split at h
    · cases h
      simp
      omega
    · cases h
  · cases h

theorem exactly_shorter {expected : Char} {text rest : List Char}
    (h : exactly expected text = .ok rest) : rest.length < text.length := by
  cases text with
  | nil => cases h
  | cons c text =>
    simp only [exactly] at h
    split at h
    · cases h
      simp
    · cases h

theorem numbered_shorter {text rest : List Char} {c : Char} (h : numbered text = .ok (c, rest)) :
    rest.length < text.length := by
  unfold numbered at h
  obtain ⟨⟨unit, r1⟩, h1, h⟩ := bind_eq_ok.1 h
  have l1 := codeUnit_shorter h1
  simp only at h
  split at h
  · cases h
  · split at h
    · obtain ⟨r2, h2, h⟩ := bind_eq_ok.1 h
      obtain ⟨r3, h3, h⟩ := bind_eq_ok.1 h
      obtain ⟨⟨low, r4⟩, h4, h⟩ := bind_eq_ok.1 h
      have l2 := exactly_shorter h2
      have l3 := exactly_shorter h3
      have l4 := codeUnit_shorter h4
      simp only at h
      split at h
      · simp only [Except.ok.injEq, Prod.mk.injEq] at h
        obtain ⟨-, rfl⟩ := h
        omega
      · cases h
    · simp only [Except.ok.injEq, Prod.mk.injEq] at h
      obtain ⟨-, rfl⟩ := h
      exact l1

theorem escape_shorter {text rest : List Char} {c : Char} (h : escape text = .ok (c, rest)) :
    rest.length < text.length := by
  unfold escape at h
  split at h
  · cases h
  · split at h
    · cases h
      simp
    · split at h
      · exact Nat.lt_succ_of_lt (numbered_shorter h)
      · cases h

theorem passEscape_shorter {text rest : List Char} (h : passEscape text = .ok rest) :
    rest.length < text.length := by
  unfold passEscape at h
  split at h
  · cases h
  · split at h
    · cases h
      simp
    · split at h
      · obtain ⟨⟨n, r⟩, hu, rfl⟩ := map_eq_ok.1 h
        exact Nat.lt_succ_of_lt (codeUnit_shorter hu)
      · cases h

def stringTail (text : List Char) : Outcome (List Char × List Char) :=
  match text with
  | [] => .error .truncated
  | '"' :: rest => .ok ([], rest)
  | '\\' :: rest =>
    match _h : escape rest with
    | .error fault => .error fault
    | .ok (c, rest) => (stringTail rest).map fun tail => (c :: tail.1, tail.2)
  | c :: rest =>
    if c.toNat < 0x20 then .error .malformed
    else (stringTail rest).map fun tail => (c :: tail.1, tail.2)
termination_by text.length
decreasing_by
  · exact Nat.lt_succ_of_lt (escape_shorter _h)
  · simp

def passString (text : List Char) : Outcome (List Char) :=
  match text with
  | [] => .error .truncated
  | '"' :: rest => .ok rest
  | '\\' :: rest =>
    match _h : passEscape rest with
    | .error fault => .error fault
    | .ok rest => passString rest
  | c :: rest => if c.toNat < 0x20 then .error .malformed else passString rest
termination_by text.length
decreasing_by
  · exact Nat.lt_succ_of_lt (passEscape_shorter _h)
  · simp

theorem stringTail_shorter {text value rest : List Char}
    (h : stringTail text = .ok (value, rest)) : rest.length < text.length := by
  fun_induction stringTail text generalizing value rest with
  | case1 => cases h
  | case2 =>
    cases h
    simp
  | case3 => cases h
  | case4 more c tail he ih =>
    obtain ⟨⟨v, r⟩, ht, hr⟩ := map_eq_ok.1 h
    cases hr
    exact Nat.lt_succ_of_lt (Nat.lt_trans (ih ht) (escape_shorter he))
  | case5 => cases h
  | case6 c more _ _ _ ih =>
    obtain ⟨⟨v, r⟩, ht, hr⟩ := map_eq_ok.1 h
    cases hr
    exact Nat.lt_succ_of_lt (ih ht)

theorem passString_shorter {text rest : List Char} (h : passString text = .ok rest) :
    rest.length < text.length := by
  fun_induction passString text with
  | case1 => cases h
  | case2 =>
    cases h
    simp
  | case3 => cases h
  | case4 more tail he ih =>
    exact Nat.lt_succ_of_lt (Nat.lt_trans (ih h) (passEscape_shorter he))
  | case5 => cases h
  | case6 c more _ _ _ ih => exact Nat.lt_succ_of_lt (ih h)

end LetReturn.JsonStrings
