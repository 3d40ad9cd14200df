import LetReturn.JsonSkipping
import LetReturn.Proofs.JsonScalars

set_option autoImplicit false

namespace LetReturn.JsonValues
open JsonReading JsonStrings JsonNumbers JsonSkipping JsonGrammar JsonScalars

/-- A character that a value or a key may start with, as far as brackets and commas go. -/
def Starts (c : Char) : Prop := ¬ Blank c ∧ c ≠ ']' ∧ c ≠ '}' ∧ c ≠ ','

instance : DecidablePred Starts := fun _ => inferInstanceAs (Decidable (_ ∧ _))

theorem Number.head {n : Numeral} {text rest : List Char} (h : Number n text rest) :
    ∃ c more, text = c :: more ∧ startsNumeral c = true := by
  cases h with
  | mk hm hw _ _ =>
    cases hm with
    | present => exact ⟨'-', _, rfl, rfl⟩
    | absent =>
      obtain ⟨⟨hne, hd, rfl⟩, -⟩ := hw
      obtain ⟨d, ds, rfl⟩ := List.exists_cons_of_ne_nil hne
      refine ⟨d, _, rfl, ?_⟩
      simp [startsNumeral, hd d List.mem_cons_self]

theorem ne_of_startsNumeral {c d : Char} (h : startsNumeral c = true)
    (hd : startsNumeral d = false) : c ≠ d := by
  rintro rfl
  rw [h] at hd
  cases hd

theorem starts_of_startsNumeral {c : Char} (h : startsNumeral c = true) : Starts c := by
  refine ⟨?_, ne_of_startsNumeral h rfl, ne_of_startsNumeral h rfl, ne_of_startsNumeral h rfl⟩
  rintro (hc | hc | hc | hc)
  all_goals exact ne_of_startsNumeral h rfl hc

theorem Written.head {p : Part} {text rest : List Char} (h : Written p text rest) :
    ∃ c more, Blanks text (c :: more) ∧ Starts c ∧ ∀ v, p = .value v → text = c :: more := by
  induction h with
  | null | yes | no | string | emptyList | list | emptyObject | object =>
    exact ⟨_, _, .none, by decide, fun _ _ => rfl⟩
  | number hn =>
    obtain ⟨c, more, rfl, hc⟩ := Number.head hn
    exact ⟨c, more, .none, starts_of_startsNumeral hc, fun _ _ => rfl⟩
  | element hf _ _ ih =>
    obtain ⟨c, more, hb, hc, -⟩ := ih
    exact ⟨c, more, Blanks.trans hf hb, hc, nofun⟩
  | member hf _ _ _ _ => exact ⟨_, _, hf, by decide, nofun⟩
  | lastElement _ ih | moreElements _ _ ih _ | lastMember _ ih | moreMembers _ _ ih _ =>
    obtain ⟨c, more, hb, hc, -⟩ := ih
    exact ⟨c, more, hb, hc, nofun⟩

theorem Written.skipBlanks_eq {v : Json} {text rest : List Char}
    (h : Written (.value v) text rest) : skipBlanks text = text := by
  obtain ⟨c, more, -, hc, htext⟩ := Written.head h
  rw [htext v rfl, skipBlanks_of_not_blank hc.1]

/-- How a passing goes on from a place. -/
def resume : Place → Outcome (List Char)
  | .behind rest => .ok rest
  | .before opened rest => passValue opened rest

theorem passValue_eq (opened : List Bracket) (text : List Char) :
    passValue opened text = step opened text >>= resume := by
  rw [passValue]
  split <;> simp_all [bind, Except.bind, resume]

theorem passValue_skipBlanks (opened : List Bracket) (text : List Char) :
    passValue opened (skipBlanks text) = passValue opened text := by
  rw [passValue_eq, passValue_eq, step, step, skipBlanks_idem]

theorem passKey_skipBlanks (text : List Char) : passKey (skipBlanks text) = passKey text := by
  rw [passKey, passKey, mark, mark, skipBlanks_idem]

theorem enter_skipBlanks (b : Bracket) (opened : List Bracket) (text : List Char) :
    b.enter (skipBlanks text) >>= passValue opened = b.enter text >>= passValue opened := by
  cases b with
  | list => exact passValue_skipBlanks opened text
  | object =>
    simp only [Bracket.enter, passKey_skipBlanks]

theorem opened?_cases {c : Char} {b : Bracket} (h : Bracket.opened? c = some b) :
    (c = '[' ∧ b = .list) ∨ (c = '{' ∧ b = .object) := by
  unfold Bracket.opened? at h
  split at h
  · cases h
    exact .inl ⟨rfl, rfl⟩
  · cases h
    exact .inr ⟨rfl, rfl⟩
  · cases h

theorem resume_before {x : Outcome (List Char)} (opened : List Bracket) :
    (x.map (.before opened)) >>= resume = x >>= passValue opened := by
  cases x <;> rfl

section Sound
variable {opened : List Bracket} {text rest : List Char}

theorem scalar_of_passScalar {c : Char} (h : passScalar c text = .ok rest) :
    ∃ v, Written (.value v) (c :: text) rest := by
  unfold passScalar at h
  split at h
  · rw [word_eq_ok.1 h]
    exact ⟨_, .null⟩
  · rw [word_eq_ok.1 h]
    exact ⟨_, .yes⟩
  · rw [word_eq_ok.1 h]
    exact ⟨_, .no⟩
  · obtain ⟨s, hs⟩ := passString_sound h
    exact ⟨_, .string hs⟩
  · split at h
    · obtain ⟨⟨n, r⟩, hn, rfl⟩ := map_eq_ok.1 h
      exact ⟨_, .number (numeral_sound hn)⟩
    · cases h

theorem unwind_cases {b : Bracket} (h : unwind (b :: opened) text >>= resume = .ok rest) :
    ∃ more, more.length < text.length ∧
      ((Blanks text (',' :: more) ∧ b.enter more >>= passValue (b :: opened) = .ok rest) ∨
        (Blanks text (b.closing :: more) ∧ unwind opened more >>= resume = .ok rest)) := by
  have hs := blanks_skipBlanks text
  have hl := skipBlanks_length_le text
  unfold unwind at h
  split at h
  · cases h
  · rename_i c more he
    rw [he] at hs
    rw [he, List.length_cons] at hl
    refine ⟨more, hl, ?_⟩
    split_ifs at h with hcomma hclose
    · rw [resume_before] at h
      rw [hcomma] at hs
      exact .inl ⟨hs, h⟩
    · rw [hclose] at hs
      exact .inr ⟨hs, h⟩
    · cases h

theorem member_of_passKey {outer : List Bracket}
    (h : passKey text >>= passValue outer = .ok rest) : ∃ k inside behind after,
      Blanks text ('"' :: inside) ∧ Pieces k inside behind ∧ Blanks behind (':' :: after) ∧
        after.length < text.length ∧ passValue outer after = .ok rest := by
  obtain ⟨after, hk, hv⟩ := bind_eq_ok.1 h
  have hl := passKey_shorter hk
  unfold passKey at hk
  obtain ⟨inside, hopen, hk⟩ := bind_eq_ok.1 hk
  obtain ⟨behind, hstring, hcolon⟩ := bind_eq_ok.1 hk
  obtain ⟨k, hpieces⟩ := passString_sound hstring
  exact ⟨k, inside, behind, after, mark_sound hopen, hpieces, mark_sound hcolon, hl, hv⟩

theorem step_cases (h : passValue opened text = .ok rest) : ∃ c more,
    Blanks text (c :: more) ∧ more.length < text.length ∧
      ((∃ behind, passScalar c more = .ok behind ∧ behind.length ≤ more.length ∧
          unwind opened behind >>= resume = .ok rest) ∨
        ∃ b, Bracket.opened? c = some b ∧
          ((∃ behind, Blanks more (b.closing :: behind) ∧ behind.length < more.length ∧
              unwind opened behind >>= resume = .ok rest) ∨
            b.enter more >>= passValue (b :: opened) = .ok rest)) := by
  have hs := blanks_skipBlanks text
  have hl := skipBlanks_length_le text
  rw [passValue_eq] at h
  unfold step at h
  split at h
  · cases h
  · rename_i c more he
    rw [he] at hs
    rw [he, List.length_cons] at hl
    refine ⟨c, more, hs, hl, ?_⟩
    split at h
    · obtain ⟨place, hp, hr⟩ := bind_eq_ok.1 h
      obtain ⟨behind, hscalar, hu⟩ := bind_eq_ok.1 hp
      refine .inl ⟨behind, hscalar, passScalar_length_le hscalar, ?_⟩
      exact bind_eq_ok.2 ⟨place, hu, hr⟩
    · rename_i b hb
      refine .inr ⟨b, hb, ?_⟩
      have hs2 := blanks_skipBlanks more
      have hl2 := skipBlanks_length_le more
      split at h
      · cases h
      · rename_i d behind hd
        rw [hd, List.length_cons] at hl2
        split_ifs at h with hclose
        · rw [hd, hclose] at hs2
          exact .inl ⟨behind, hs2, hl2, h⟩
        · rw [resume_before, ← hd, enter_skipBlanks] at h
          exact .inr h

mutual

theorem value_of_passValue {opened : List Bracket} {text rest : List Char}
    (h : passValue opened text = .ok rest) : ∃ front v behind, Blanks text front ∧
      Written (.value v) front behind ∧ behind.length < text.length ∧
        unwind opened behind >>= resume = .ok rest := by
  obtain ⟨c, more, hb, hl, ⟨behind, hscalar, hbehind, hu⟩ | ⟨b, hopen, hrest⟩⟩ := step_cases h
  · obtain ⟨v, hv⟩ := scalar_of_passScalar hscalar
    exact ⟨_, v, behind, hb, hv, by omega, hu⟩
  · obtain ⟨rfl, rfl⟩ | ⟨rfl, rfl⟩ := opened?_cases hopen
    · obtain ⟨behind, hclose, hbehind, hu⟩ | hmore := hrest
      · exact ⟨_, _, behind, hb, .emptyList hclose, by omega, hu⟩
      · obtain ⟨vs, behind, hvs, hbehind, hu⟩ := elements_of_passValue hmore
        exact ⟨_, _, behind, hb, .list hvs, by omega, hu⟩
    · obtain ⟨behind, hclose, hbehind, hu⟩ | hmore := hrest
      · exact ⟨_, _, behind, hb, .emptyObject hclose, by omega, hu⟩
      · obtain ⟨ms, behind, hms, hbehind, hu⟩ := members_of_passKey hmore
        exact ⟨_, _, behind, hb, .object hms, by omega, hu⟩
termination_by (text.length, 0)

theorem elements_of_passValue {opened : List Bracket} {text rest : List Char}
    (h : passValue (.list :: opened) text = .ok rest) : ∃ vs behind,
      Written (.elements vs) text (']' :: behind) ∧ behind.length < text.length ∧
        unwind opened behind >>= resume = .ok rest := by
  obtain ⟨front, v, behind, hb, hv, hl, hu⟩ := value_of_passValue h
  obtain ⟨more, hmore, ⟨hcomma, henter⟩ | ⟨hclose, hu⟩⟩ := unwind_cases hu
  · obtain ⟨vs, after, htail, hafter, hu⟩ := elements_of_passValue henter
    exact ⟨v :: vs, after, .moreElements (.element hb hv hcomma) htail, by omega, hu⟩
  · exact ⟨[v], more, .lastElement (.element hb hv hclose), by omega, hu⟩
termination_by (text.length, 1)

theorem members_of_passKey {opened : List Bracket} {text rest : List Char}
    (h : passKey text >>= passValue (.object :: opened) = .ok rest) : ∃ ms behind,
      Written (.members ms) text ('}' :: behind) ∧ behind.length < text.length ∧
        unwind opened behind >>= resume = .ok rest := by
  obtain ⟨k, inside, middle, start, hkey, hpieces, hcolon, hstart, hvalue⟩ := member_of_passKey h
  obtain ⟨front, v, behind, hb, hv, hl, hu⟩ := value_of_passValue hvalue
  obtain ⟨more, hmore, ⟨hcomma, henter⟩ | ⟨hclose, hu⟩⟩ := unwind_cases hu
  · obtain ⟨ms, after, htail, hafter, hu⟩ := members_of_passKey henter
    exact ⟨(k, v) :: ms, after,
      .moreMembers (.member hkey hpieces hcolon (.element hb hv hcomma)) htail, by omega, hu⟩
  · exact ⟨[(k, v)], more,
      .lastMember (.member hkey hpieces hcolon (.element hb hv hclose)), by omega, hu⟩
termination_by (text.length, 1)

end

end Sound

section Complete
variable {b : Bracket} {opened outer : List Bracket} {start text more behind rest : List Char}

theorem not_blank_of_opened? {c : Char} (h : Bracket.opened? c = some b) : ¬ Blank c := by
  obtain ⟨rfl, -⟩ | ⟨rfl, -⟩ := opened?_cases h
  · decide
  · decide

theorem not_blank_closing (b : Bracket) : ¬ Blank b.closing := by
  cases b <;> decide

theorem passValue_scalar {c : Char} (hs : Blanks start (c :: more)) (hc : Starts c)
    (ho : Bracket.opened? c = none) (hp : passScalar c more = .ok rest) :
    passValue opened start = unwind opened rest >>= resume := by
  rw [passValue_eq, step, Blanks.skip_cons hs hc.1]
  simp only [ho, hp]
  rfl

theorem passValue_empty {c : Char} (hs : Blanks start (c :: more))
    (ho : Bracket.opened? c = some b) (hm : Blanks more (b.closing :: rest)) :
    passValue opened start = unwind opened rest >>= resume := by
  rw [passValue_eq, step, Blanks.skip_cons hs (not_blank_of_opened? ho)]
  simp only [ho, Blanks.skip_cons hm (not_blank_closing b), ↓reduceIte]

theorem passValue_open {c d : Char} (hs : Blanks start (c :: more))
    (ho : Bracket.opened? c = some b) (hm : Blanks more (d :: behind)) (hd : Starts d) :
    passValue opened start = b.enter more >>= passValue (b :: opened) := by
  have hne : d ≠ b.closing := by
    cases b with
    | list => exact hd.2.1
    | object => exact hd.2.2.1
  rw [← enter_skipBlanks, ← resume_before, passValue_eq, step,
    Blanks.skip_cons hs (not_blank_of_opened? ho)]
  simp only [ho, Blanks.skip_cons hm hd.1, if_neg hne]

theorem unwind_comma (h : Blanks text (',' :: more)) :
    unwind (b :: outer) text >>= resume = b.enter more >>= passValue (b :: outer) := by
  rw [← resume_before, unwind, Blanks.skip_cons h (by decide)]
  rfl

theorem unwind_close (h : Blanks text (b.closing :: more)) :
    unwind (b :: outer) text >>= resume = unwind outer more >>= resume := by
  have hne : b.closing ≠ ',' := by
    cases b <;> decide
  rw [unwind, Blanks.skip_cons h (not_blank_closing b)]
  simp only [if_neg hne, ↓reduceIte]

theorem unwind_blanks (h : Blanks text rest) :
    unwind (b :: outer) text = unwind (b :: outer) rest := by
  rw [unwind, unwind, Blanks.skip_eq h]

theorem passScalar_numeral {n : Numeral} {c : Char} (hc : startsNumeral c = true)
    (h : Number n (c :: more) rest) (hr : Bounded rest) : passScalar c more = .ok rest := by
  unfold passScalar
  split
  · cases hc
  · cases hc
  · cases hc
  · cases hc
  · rw [if_pos hc, Number.numeral_eq h hr]
    rfl

theorem opened?_of_startsNumeral {c : Char} (hc : startsNumeral c = true) :
    Bracket.opened? c = none := by
  unfold Bracket.opened?
  split
  · cases hc
  · cases hc
  · rfl

theorem passKey_eq {k : List Piece} {inside after : List Char} (hf : Blanks text ('"' :: inside))
    (hk : Pieces k inside behind) (hb : Blanks behind (':' :: after)) :
    passKey text = .ok after := by
  simp [passKey, Blanks.mark_eq hf (by decide), Pieces.passString_eq hk,
    Blanks.mark_eq hb (by decide), bind, Except.bind]

/-- What passing a part from the front of a text comes to, by the rest of the text. -/
def Passes : Part → List Char → List Char → Prop
  | .value _, text, rest => Bounded rest → ∀ (opened : List Bracket) (start : List Char),
      Blanks start text → passValue opened start = unwind opened rest >>= resume
  | .element _, text, rest => Bounded rest → ∀ (b : Bracket) (outer : List Bracket),
      passValue (b :: outer) text = unwind (b :: outer) rest >>= resume
  | .member _, text, rest => Bounded rest → ∀ outer : List Bracket,
      passKey text >>= passValue (.object :: outer) = unwind (.object :: outer) rest >>= resume
  | .elements _, text, rest => ∀ (more : List Char) (outer : List Bracket), rest = ']' :: more →
      passValue (.list :: outer) text = unwind outer more >>= resume
  | .members _, text, rest => ∀ (more : List Char) (outer : List Bracket), rest = '}' :: more →
      passKey text >>= passValue (.object :: outer) = unwind outer more >>= resume

theorem Written.passes {p : Part} {text rest : List Char} (h : Written p text rest) :
    Passes p text rest := by
  induction h with
  | null | yes | no =>
    intro _ opened start hs
    exact passValue_scalar hs (by decide) rfl (word_eq_ok.2 rfl)
  | number hn =>
    intro hr opened start hs
    obtain ⟨c, more, rfl, hc⟩ := Number.head hn
    exact passValue_scalar hs (starts_of_startsNumeral hc) (opened?_of_startsNumeral hc)
      (passScalar_numeral hc hn hr)
  | string hp =>
    intro _ opened start hs
    exact passValue_scalar hs (by decide) rfl (Pieces.passString_eq hp)
  | emptyList hb =>
    intro _ opened start hs
    exact passValue_empty (b := .list) hs rfl hb
  | emptyObject hb =>
    intro _ opened start hs
    exact passValue_empty (b := .object) hs rfl hb
  | list h ih =>
    intro _ opened start hs
    obtain ⟨d, behind, hm, hd, -⟩ := Written.head h
    rw [passValue_open (b := .list) hs rfl hm hd]
    exact ih _ opened rfl
  | object h ih =>
    intro _ opened start hs
    obtain ⟨d, behind, hm, hd, -⟩ := Written.head h
    rw [passValue_open (b := .object) hs rfl hm hd]
    exact ih _ opened rfl
  | element hf _ hb ih =>
    intro hr b outer
    rw [ih (Blanks.bounded hb hr) _ _ hf, unwind_blanks hb]
  | member hf hk hb _ ih =>
    intro hr outer
    rw [passKey_eq hf hk hb]
    exact ih hr .object outer
  | lastElement _ ih =>
    rintro more outer rfl
    rw [ih (bounded_cons (by decide) more)]
    exact unwind_close .none
  | lastMember _ ih =>
    rintro more outer rfl
    rw [ih (bounded_cons (by decide) more)]
    exact unwind_close .none
  | @moreElements v vs text after rest _ _ ih ih' =>
    rintro more outer rfl
    rw [ih (bounded_cons (by decide) after), unwind_comma .none]
    exact ih' more outer rfl
  | @moreMembers m ms text after rest _ _ ih ih' =>
    rintro more outer rfl
    rw [ih (bounded_cons (by decide) after), unwind_comma .none]
    exact ih' more outer rfl

end Complete

theorem Written.passValue_eq {v : Json} {start text rest : List Char}
    (h : Written (.value v) text rest) (hs : Blanks start text) (hr : Bounded rest) :
    passValue [] start = .ok rest :=
  Written.passes h hr [] start hs

theorem passValue_sound {text rest : List Char} (h : passValue [] text = .ok rest) :
    ∃ front v, Blanks text front ∧ Written (.value v) front rest := by
  obtain ⟨front, v, behind, hb, hv, -, hu⟩ := value_of_passValue h
  cases hu
  exact ⟨front, v, hb, hv⟩

end LetReturn.JsonValues
