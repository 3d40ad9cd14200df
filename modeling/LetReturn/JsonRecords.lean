import LetReturn.JsonSkipping

set_option autoImplicit false

namespace LetReturn.JsonRecords
open JsonReading JsonStrings JsonNumbers JsonSkipping

/-- The fault of a value that has been read although another type was asked for. -/
def faultOf {α : Type} : Outcome α → Fault
  | .error fault => fault
  | .ok _ => .mismatch

/-- The fault of a value that does not start as the one asked for. -/
def refusal : List Char → Fault
  | [] => .truncated
  | 'n' :: rest => faultOf (word ['u', 'l', 'l'] rest)
  | 't' :: rest => faultOf (word ['r', 'u', 'e'] rest)
  | 'f' :: rest => faultOf (word ['a', 'l', 's', 'e'] rest)
  | '"' :: rest => faultOf (stringTail rest)
  | '[' :: _ => .mismatch
  | '{' :: _ => .mismatch
  | c :: rest =>
    if startsNumeral c then
      match numeral .truncated (c :: rest) with
      | .error fault => fault
      | .ok (n, _) => n.refusal
    else .malformed

def readFlag (text : List Char) : Outcome (Bool × List Char) :=
  match skipBlanks text with
  | 't' :: rest => (word ['r', 'u', 'e'] rest).map ((true, ·))
  | 'f' :: rest => (word ['a', 'l', 's', 'e'] rest).map ((false, ·))
  | other => .error (refusal other)

def readText (text : List Char) : Outcome (String × List Char) :=
  match skipBlanks text with
  | '"' :: rest => (stringTail rest).map fun tail => (String.ofList tail.1, tail.2)
  | other => .error (refusal other)

def readCount (text : List Char) : Outcome (Nat × List Char) :=
  match skipBlanks text with
  | [] => .error .truncated
  | c :: rest =>
    if startsNumeral c then do
      let (n, rest) ← numeral .truncated (c :: rest)
      match n.count? with
      | some value => .ok (value, rest)
      | none => .error n.refusal
    else .error (refusal (c :: rest))

theorem readFlag_shorter {text rest : List Char} {value : Bool}
    (h : readFlag text = .ok (value, rest)) : rest.length < text.length := by
  have hb := skipBlanks_length_le text
  unfold readFlag at h
  split at h
  · rename_i more he
    obtain ⟨r, hw, hr⟩ := map_eq_ok.1 h
    cases hr
    have hl := word_length_le hw
    rw [he] at hb
    exact Nat.lt_of_le_of_lt hl hb
  · rename_i more he
    obtain ⟨r, hw, hr⟩ := map_eq_ok.1 h
    cases hr
    have hl := word_length_le hw
    rw [he] at hb
    exact Nat.lt_of_le_of_lt hl hb
  · cases h

theorem readText_shorter {text rest : List Char} {value : String}
    (h : readText text = .ok (value, rest)) : rest.length < text.length := by
  have hb := skipBlanks_length_le text
  unfold readText at h
  split at h
  · rename_i more he
    obtain ⟨⟨v, r⟩, hs, hr⟩ := map_eq_ok.1 h
    cases hr
    have hl := stringTail_shorter hs
    rw [he] at hb
    exact Nat.lt_trans hl hb
  · cases h

theorem readCount_shorter {text rest : List Char} {value : Nat}
    (h : readCount text = .ok (value, rest)) : rest.length < text.length := by
  have hb := skipBlanks_length_le text
  unfold readCount at h
  split at h
  · cases h
  · rename_i c more he
    rw [he] at hb
    split at h
    · obtain ⟨⟨n, r⟩, hn, h⟩ := bind_eq_ok.1 h
      have hl := numeral_shorter hn
      simp only at h
      split at h
      · cases h
        exact Nat.lt_of_lt_of_le hl hb
      · cases h
    · cases h

def flag : Reader Bool := ⟨readFlag, readFlag_shorter⟩
def string : Reader String := ⟨readText, readText_shorter⟩
def count : Reader Nat := ⟨readCount, readCount_shorter⟩

def nextElement (first : Bool) (text : List Char) : Outcome (Bool × List Char) :=
  match skipBlanks text with
  | [] => .error .truncated
  | c :: rest =>
    if c = ']' then .ok (false, rest)
    else if first then .ok (true, c :: rest)
    else if c = ',' then
      match skipBlanks rest with
      | [] => .error .truncated
      | d :: more => if d = ']' then .error .malformed else .ok (true, d :: more)
    else .error .malformed

def nextMember (first : Bool) (text : List Char) : Outcome (Bool × List Char) :=
  match skipBlanks text with
  | [] => .error .truncated
  | c :: rest =>
    if c = '}' then .ok (false, rest)
    else if first then if c = '"' then .ok (true, rest) else .error .malformed
    else if c = ',' then (mark '"' rest).map ((true, ·))
    else .error .malformed

theorem nextElement_length_le {first more : Bool} {text rest : List Char}
    (h : nextElement first text = .ok (more, rest)) : rest.length ≤ text.length := by
  have hb := skipBlanks_length_le text
  unfold nextElement at h
  split at h
  · cases h
  · rename_i c r he
    rw [he, List.length_cons] at hb
    split at h
    · cases h
      omega
    · split at h
      · cases h
        exact hb
      · split at h
        · have hb2 := skipBlanks_length_le r
          split at h
          · cases h
          · rename_i d tail hd
            rw [hd] at hb2
            split at h
            · cases h
            · cases h
              omega
        · cases h

theorem nextElement_end_shorter {first : Bool} {text rest : List Char}
    (h : nextElement first text = .ok (false, rest)) : rest.length < text.length := by
  have hb := skipBlanks_length_le text
  unfold nextElement at h
  split at h
  · cases h
  · rename_i c r he
    rw [he, List.length_cons] at hb
    split at h
    · cases h
      exact hb
    · split at h
      · cases h
      · split at h
        · split at h
          · cases h
          · split at h <;> cases h
        · cases h

theorem nextMember_shorter {first more : Bool} {text rest : List Char}
    (h : nextMember first text = .ok (more, rest)) : rest.length < text.length := by
  have hb := skipBlanks_length_le text
  unfold nextMember at h
  split at h
  · cases h
  · rename_i c r he
    rw [he, List.length_cons] at hb
    split at h
    · cases h
      exact hb
    · split at h
      · split at h
        · cases h
          exact hb
        · cases h
      · split at h
        · obtain ⟨t, hm, hr⟩ := map_eq_ok.1 h
          cases hr
          have := mark_shorter hm
          omega
        · cases h

def elements {α : Type} (item : Reader α) (first : Bool) (text : List Char) :
    Outcome (List α × List Char) :=
  match _h : nextElement first text with
  | .error fault => .error fault
  | .ok (false, rest) => .ok ([], rest)
  | .ok (true, rest) =>
    match _hi : item.read rest with
    | .error fault => .error fault
    | .ok (value, rest) =>
      (elements item false rest).map fun tail => (value :: tail.1, tail.2)
termination_by text.length
decreasing_by exact Nat.lt_of_lt_of_le (item.shorter _hi) (nextElement_length_le _h)

theorem elements_shorter {α : Type} {item : Reader α} {first : Bool} {text rest : List Char}
    {values : List α} (h : elements item first text = .ok (values, rest)) :
    rest.length < text.length := by
  fun_induction elements item first text generalizing values rest with
  | case1 => cases h
  | case2 first text r hn =>
    cases h
    exact nextElement_end_shorter hn
  | case3 => cases h
  | case4 first text r hn value tail hi ih =>
    obtain ⟨⟨v, t⟩, ht, he⟩ := map_eq_ok.1 h
    cases he
    have l1 : t.length < tail.length := ih ht
    have l2 := item.shorter hi
    have l3 := nextElement_length_le hn
    exact Nat.lt_trans l1 (Nat.lt_of_lt_of_le l2 l3)

def readList {α : Type} (item : Reader α) (text : List Char) : Outcome (List α × List Char) :=
  match skipBlanks text with
  | '[' :: rest => elements item true rest
  | other => .error (refusal other)

theorem readList_shorter {α : Type} {item : Reader α} {text rest : List Char} {values : List α}
    (h : readList item text = .ok (values, rest)) : rest.length < text.length := by
  have hb := skipBlanks_length_le text
  unfold readList at h
  split at h
  · rename_i more he
    rw [he, List.length_cons] at hb
    have := elements_shorter h
    omega
  · cases h

def list {α : Type} (item : Reader α) : Reader (List α) := ⟨readList item, readList_shorter⟩

/-- A field of a record of which `σ` holds what has been read so far. -/
structure Field (σ : Type) where
  name : String
  filled : σ → Bool
  fill : σ → Reader σ

/-- The fields of a record in order, and the record once all are there. -/
structure Shape (σ α : Type) where
  start : σ
  fields : List (Field σ)
  finish : σ → Option α

variable {σ α : Type}

/-- A member behind its key: a field that is there already is refused before its value is seen, and
the value under an unknown name is passed over. -/
def member (shape : Shape σ α) (s : σ) (key : String) (text : List Char) :
    Outcome (σ × List Char) :=
  match shape.fields.find? (·.name == key) with
  | some field =>
    if field.filled s then .error .mismatch else mark ':' text >>= (field.fill s).read
  | none => mark ':' text >>= fun value => (passValue [] value).map ((s, ·))

theorem member_shorter {shape : Shape σ α} {s t : σ} {key : String} {text rest : List Char}
    (h : member shape s key text = .ok (t, rest)) : rest.length < text.length := by
  unfold member at h
  split at h
  · rename_i field _
    split at h
    · cases h
    · obtain ⟨r, hm, hf⟩ := bind_eq_ok.1 h
      exact Nat.lt_trans ((field.fill s).shorter hf) (mark_shorter hm)
  · obtain ⟨r, hm, hp⟩ := bind_eq_ok.1 h
    obtain ⟨q, hq, he⟩ := map_eq_ok.1 hp
    cases he
    exact Nat.lt_trans (passValue_shorter hq) (mark_shorter hm)

def members (shape : Shape σ α) (s : σ) (first : Bool) (text : List Char) :
    Outcome (σ × List Char) :=
  match _h : nextMember first text with
  | .error fault => .error fault
  | .ok (false, rest) => .ok (s, rest)
  | .ok (true, rest) =>
    match _hk : stringTail rest with
    | .error fault => .error fault
    | .ok (key, rest) =>
      match _hm : member shape s (String.ofList key) rest with
      | .error fault => .error fault
      | .ok (t, rest) => members shape t false rest
termination_by text.length
decreasing_by
  exact Nat.lt_trans (member_shorter _hm) (Nat.lt_trans (stringTail_shorter _hk)
    (nextMember_shorter _h))

theorem members_shorter {shape : Shape σ α} {s t : σ} {first : Bool} {text rest : List Char}
    (h : members shape s first text = .ok (t, rest)) : rest.length < text.length := by
  fun_induction members shape s first text with
  | case1 => cases h
  | case2 s first text r hn =>
    cases h
    exact nextMember_shorter hn
  | case3 => cases h
  | case4 => cases h
  | case5 s first text r hn key r2 hk u r3 hm ih =>
    exact Nat.lt_trans (ih h) (Nat.lt_trans (member_shorter hm)
      (Nat.lt_trans (stringTail_shorter hk) (nextMember_shorter hn)))

/-- The fields of a record written as a list. A list that ends early is a mismatch, and one that
goes on is malformed. -/
def positions : List (Field σ) → Bool → σ → List Char → Outcome (σ × List Char)
  | [], _, s, text => (mark ']' text).map ((s, ·))
  | field :: fields, first, s, text => do
    let (more, rest) ← nextElement first text
    if more then
      let (t, rest) ← (field.fill s).read rest
      positions fields false t rest
    else .error .mismatch

theorem positions_shorter {fields : List (Field σ)} {first : Bool} {s t : σ}
    {text rest : List Char} (h : positions fields first s text = .ok (t, rest)) :
    rest.length < text.length := by
  induction fields generalizing first s text with
  | nil =>
    obtain ⟨r, hm, he⟩ := map_eq_ok.1 h
    cases he
    exact mark_shorter hm
  | cons field fields ih =>
    unfold positions at h
    obtain ⟨⟨more, r1⟩, h1, h⟩ := bind_eq_ok.1 h
    have l1 := nextElement_length_le h1
    simp only at h
    split at h
    · obtain ⟨⟨u, r2⟩, h2, h⟩ := bind_eq_ok.1 h
      have l2 := (field.fill s).shorter h2
      have l3 : rest.length < r2.length := ih h
      omega
    · cases h

def finished (shape : Shape σ α) (s : σ) (rest : List Char) : Outcome (α × List Char) :=
  match shape.finish s with
  | some value => .ok (value, rest)
  | none => .error .mismatch

def readRecord (shape : Shape σ α) (text : List Char) : Outcome (α × List Char) :=
  match skipBlanks text with
  | '[' :: rest => positions shape.fields true shape.start rest >>= fun p => finished shape p.1 p.2
  | '{' :: rest => members shape shape.start true rest >>= fun p => finished shape p.1 p.2
  | other => .error (refusal other)

theorem finished_rest {shape : Shape σ α} {s : σ} {value : α} {text rest : List Char}
    (h : finished shape s text = .ok (value, rest)) : rest = text := by
  unfold finished at h
  split at h
  · cases h
    rfl
  · cases h

theorem readRecord_shorter {shape : Shape σ α} {text rest : List Char} {value : α}
    (h : readRecord shape text = .ok (value, rest)) : rest.length < text.length := by
  have hb := skipBlanks_length_le text
  unfold readRecord at h
  split at h
  · rename_i more he
    rw [he, List.length_cons] at hb
    obtain ⟨⟨s, r⟩, hp, hf⟩ := bind_eq_ok.1 h
    cases finished_rest hf
    have hl : r.length < more.length := positions_shorter hp
    exact Nat.lt_trans hl hb
  · rename_i more he
    rw [he, List.length_cons] at hb
    obtain ⟨⟨s, r⟩, hp, hf⟩ := bind_eq_ok.1 h
    cases finished_rest hf
    have hl : r.length < more.length := members_shorter hp
    exact Nat.lt_trans hl hb
  · cases h

def record (shape : Shape σ α) : Reader α := ⟨readRecord shape, readRecord_shorter⟩

def whole (reader : Reader α) (text : List Char) : Outcome α := do
  let (value, rest) ← reader.read text
  if (skipBlanks rest).isEmpty then .ok value else .error .malformed

end LetReturn.JsonRecords
