import LetReturn.JsonNumbers
import LetReturn.JsonStrings

set_option autoImplicit false

namespace LetReturn.JsonSkipping
open JsonReading JsonStrings JsonNumbers

inductive Bracket where
  | list | object
  deriving DecidableEq, Repr

def Bracket.closing : Bracket → Char
  | list => ']'
  | object => '}'

def Bracket.opened? : Char → Option Bracket
  | '[' => some .list
  | '{' => some .object
  | _ => none

/-- Where a reading stands: behind the whole value, or before a value inside the open brackets. -/
inductive Place where
  | behind (rest : List Char)
  | before (opened : List Bracket) (rest : List Char)

def Place.rest : Place → List Char
  | behind rest => rest
  | before _ rest => rest

def passKey (text : List Char) : Outcome (List Char) := do
  let inside ← mark '"' text
  let behind ← passString inside
  mark ':' behind

def Bracket.enter (b : Bracket) (text : List Char) : Outcome (List Char) :=
  match b with
  | list => .ok text
  | object => passKey text

/-- What may follow a value: closing brackets, and a comma if one is left open. -/
def unwind : List Bracket → List Char → Outcome Place
  | [], text => .ok (.behind text)
  | b :: outer, text =>
    match skipBlanks text with
    | [] => .error .truncated
    | c :: rest =>
      if c = ',' then (b.enter rest).map (.before (b :: outer))
      else if c = b.closing then unwind outer rest
      else .error .malformed

def passScalar (c : Char) (rest : List Char) : Outcome (List Char) :=
  match c with
  | 'n' => word ['u', 'l', 'l'] rest
  | 't' => word ['r', 'u', 'e'] rest
  | 'f' => word ['a', 'l', 's', 'e'] rest
  | '"' => passString rest
  | c =>
    if startsNumeral c then (numeral .malformed (c :: rest)).map (·.2)
    else .error .malformed

def step (opened : List Bracket) (text : List Char) : Outcome Place :=
  match skipBlanks text with
  | [] => .error .truncated
  | c :: rest =>
    match Bracket.opened? c with
    | none => passScalar c rest >>= unwind opened
    | some b =>
      match skipBlanks rest with
      | [] => .error .truncated
      | d :: more =>
        if d = b.closing then unwind opened more
        else (b.enter (d :: more)).map (.before (b :: opened))

theorem passKey_shorter {text rest : List Char} (h : passKey text = .ok rest) :
    rest.length < text.length := by
  unfold passKey at h
  obtain ⟨r1, h1, h⟩ := bind_eq_ok.1 h
  obtain ⟨r2, h2, h⟩ := bind_eq_ok.1 h
  have l1 := mark_shorter h1
  have l2 := passString_shorter h2
  have l3 := mark_shorter h
  omega

theorem enter_length_le {b : Bracket} {text rest : List Char} (h : b.enter text = .ok rest) :
    rest.length ≤ text.length := by
  cases b with
  | list =>
    cases h
    exact Nat.le_refl _
  | object => exact Nat.le_of_lt (passKey_shorter h)

theorem unwind_length_le {opened : List Bracket} {text : List Char} {place : Place}
    (h : unwind opened text = .ok place) : place.rest.length ≤ text.length := by
  induction opened generalizing text with
  | nil =>
    cases h
    exact Nat.le_refl _
  | cons b outer ih =>
    have hb := skipBlanks_length_le text
    unfold unwind at h
    split at h
    · cases h
    · rename_i c rest he
      rw [he, List.length_cons] at hb
      split at h
      · obtain ⟨r, hr, rfl⟩ := map_eq_ok.1 h
        have := enter_length_le hr
        simp only [Place.rest]
        omega
      · split at h
        · have := ih h
          omega
        · cases h

theorem word_length_le {letters text rest : List Char} (h : word letters text = .ok rest) :
    rest.length ≤ text.length := by
  rw [word_eq_ok.1 h]
  simp

theorem passScalar_length_le {c : Char} {text rest : List Char}
    (h : passScalar c text = .ok rest) : rest.length ≤ text.length := by
  unfold passScalar at h
  split at h
  · exact word_length_le h
  · exact word_length_le h
  · exact word_length_le h
  · exact Nat.le_of_lt (passString_shorter h)
  · split at h
    · obtain ⟨⟨n, r⟩, hn, rfl⟩ := map_eq_ok.1 h
      exact Nat.le_of_lt_succ (numeral_shorter hn)
    · cases h

theorem step_shorter {opened : List Bracket} {text : List Char} {place : Place}
    (h : step opened text = .ok place) : place.rest.length < text.length := by
  have hb := skipBlanks_length_le text
  unfold step at h
  split at h
  · cases h
  · rename_i c rest he
    rw [he, List.length_cons] at hb
    split at h
    · obtain ⟨r, hr, hu⟩ := bind_eq_ok.1 h
      have l1 := passScalar_length_le hr
      have l2 := unwind_length_le hu
      omega
    · rename_i b hbr
      have hb2 := skipBlanks_length_le rest
      split at h
      · cases h
      · rename_i d more hd
        rw [hd] at hb2
        split at h
        · have l := unwind_length_le h
          simp only [List.length_cons] at hb2
          omega
        · obtain ⟨r, hr, rfl⟩ := map_eq_ok.1 h
          have l := enter_length_le hr
          simp only [Place.rest]
          omega

/-- Pass over the value in front, with the given brackets open around it, and over all that is left
of those. -/
def passValue (opened : List Bracket) (text : List Char) : Outcome (List Char) :=
  match _h : step opened text with
  | .error fault => .error fault
  | .ok (.behind rest) => .ok rest
  | .ok (.before deeper rest) => passValue deeper rest
termination_by text.length
decreasing_by exact step_shorter _h

theorem passValue_shorter {opened : List Bracket} {text rest : List Char}
    (h : passValue opened text = .ok rest) : rest.length < text.length := by
  fun_induction passValue opened text with
  | case1 => cases h
  | case2 opened text r hs =>
    cases h
    exact step_shorter hs
  | case3 opened text deeper r hs ih => exact Nat.lt_trans (ih h) (step_shorter hs)

end LetReturn.JsonSkipping
