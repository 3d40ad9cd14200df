import LetReturn.Proofs.JsonValues

set_option autoImplicit false

namespace LetReturn.JsonUniqueness
open JsonReading JsonStrings JsonNumbers JsonGrammar JsonScalars JsonValues

def Stops (rest : List Char) : Prop := ∀ c ∈ rest.head?, c = ',' ∨ c = ']' ∨ c = '}'

theorem stops_cons {c : Char} (h : c = ',' ∨ c = ']' ∨ c = '}') (rest : List Char) :
    Stops (c :: rest) := by
  rintro _ ⟨⟩
  exact h

theorem Stops.bounded {rest : List Char} (h : Stops rest) : Bounded rest := by
  intro c hc
  rcases h c hc with rfl | rfl | rfl <;> decide

theorem Stops.skipBlanks_eq {rest : List Char} (h : Stops rest) : skipBlanks rest = rest := by
  cases rest with
  | nil => rfl
  | cons c rest =>
    apply skipBlanks_of_not_blank
    rcases h c rfl with rfl | rfl | rfl <;> decide

section Leaves
variable {text rest rest' : List Char}

theorem Blanks.unique (h : Blanks text rest) (h' : Blanks text rest')
    (hr : skipBlanks rest = rest) (hr' : skipBlanks rest' = rest') : rest' = rest := by
  rw [← hr, ← hr', ← Blanks.skip_eq h, Blanks.skip_eq h']

theorem CodeUnit.unique {n n' : ℕ} (h : CodeUnit n text rest) (h' : CodeUnit n' text rest') :
    n' = n ∧ rest' = rest := by
  rw [← codeUnit_eq_ok] at h h'
  rw [h] at h'
  cases h'
  exact ⟨rfl, rfl⟩

theorem letter_ne_u {l c : Char} (h : (l, c) ∈ letters) : l ≠ 'u' := by
  rintro rfl
  rw [← lettered?_eq_some_iff] at h
  cases h

theorem letter_unique {l c c' : Char} (h : (l, c) ∈ letters) (h' : (l, c') ∈ letters) : c' = c := by
  rw [← lettered?_eq_some_iff] at h h'
  rw [h] at h'
  cases h'
  rfl

theorem Pieces.unique {s s' : List Piece} (h : Pieces s text rest) (h' : Pieces s' text rest') :
    s' = s ∧ rest' = rest := by
  induction h generalizing s' with
  | close =>
    cases h' with
    | close => exact ⟨rfl, rfl⟩
    | raw hq _ _ _ => exact absurd rfl hq
  | raw hq hb _ _ ih =>
    cases h' with
    | close => exact absurd rfl hq
    | raw _ _ _ tail =>
      obtain ⟨rfl, rfl⟩ := ih tail
      exact ⟨rfl, rfl⟩
    | letter _ _ => exact absurd rfl hb
    | unit _ _ => exact absurd rfl hb
  | letter hl _ ih =>
    cases h' with
    | raw _ hb _ _ => exact absurd rfl hb
    | letter hl' tail =>
      obtain ⟨rfl, rfl⟩ := ih tail
      rw [letter_unique hl hl']
      exact ⟨rfl, rfl⟩
    | unit _ _ => exact absurd rfl (letter_ne_u hl)
  | unit hu _ ih =>
    cases h' with
    | raw _ hb _ _ => exact absurd rfl hb
    | letter hl' _ => exact absurd rfl (letter_ne_u hl')
    | unit hu' tail =>
      obtain ⟨rfl, rfl⟩ := CodeUnit.unique hu hu'
      obtain ⟨rfl, rfl⟩ := ih tail
      exact ⟨rfl, rfl⟩

theorem Number.unique {n n' : Numeral} (h : Number n text rest) (h' : Number n' text rest')
    (hr : Bounded rest) (hr' : Bounded rest') : n' = n ∧ rest' = rest := by
  have he : numeral .malformed text = .ok (n, rest) := Number.numeral_eq h hr
  rw [Number.numeral_eq h' hr'] at he
  cases he
  exact ⟨rfl, rfl⟩

theorem Number.not_of_head {n : Numeral} {c : Char} (h : Number n (c :: text) rest)
    (hc : startsNumeral c = false) : False := by
  obtain ⟨d, more, he, hd⟩ := Number.head h
  cases he
  rw [hc] at hd
  cases hd

theorem not_empty_of_head {p : Part} {c : Char} (h : Written p text rest)
    (hb : Blanks text (c :: rest')) (hc : c = ']' ∨ c = '}') : False := by
  obtain ⟨d, more, hd, hs, -⟩ := Written.head h
  have hnot : ¬ Blank c := by
    rcases hc with rfl | rfl <;> decide
  have he := Blanks.unique hd hb (skipBlanks_of_not_blank hs.1 more)
    (skipBlanks_of_not_blank hnot rest')
  cases he
  rcases hc with rfl | rfl
  · exact hs.2.1 rfl
  · exact hs.2.2.1 rfl

end Leaves

/-- The part is the only one of its kind in front of the text. -/
def Decides : Part → List Char → List Char → Prop
  | .value v, text, rest => Bounded rest → ∀ v' rest', Bounded rest' →
      Written (.value v') text rest' → v' = v ∧ rest' = rest
  | .element v, text, rest => Stops rest → ∀ v' rest', Stops rest' →
      Written (.element v') text rest' → v' = v ∧ rest' = rest
  | .member m, text, rest => Stops rest → ∀ m' rest', Stops rest' →
      Written (.member m') text rest' → m' = m ∧ rest' = rest
  | .elements vs, text, rest => ∀ more, rest = ']' :: more → ∀ vs' more',
      Written (.elements vs') text (']' :: more') → vs' = vs ∧ more' = more
  | .members ms, text, rest => ∀ more, rest = '}' :: more → ∀ ms' more',
      Written (.members ms') text ('}' :: more') → ms' = ms ∧ more' = more

theorem Written.decides {p : Part} {text rest : List Char} (h : Written p text rest) :
    Decides p text rest := by
  induction h with
  | null | yes | no =>
    intro _ v' rest' _ h'
    cases h'
    · exact ⟨rfl, rfl⟩
    · exact (Number.not_of_head ‹_› rfl).elim
  | number hn =>
    intro hr v' rest' hr' h'
    cases h' with
    | number hn' =>
      obtain ⟨rfl, rfl⟩ := Number.unique hn hn' hr hr'
      exact ⟨rfl, rfl⟩
    | null | yes | no | string | emptyList | list | emptyObject | object =>
      exact (Number.not_of_head hn rfl).elim
  | string hs =>
    intro _ v' rest' _ h'
    cases h' with
    | string hs' =>
      obtain ⟨rfl, rfl⟩ := Pieces.unique hs hs'
      exact ⟨rfl, rfl⟩
    | number hn => exact (Number.not_of_head hn rfl).elim
  | emptyList hb =>
    intro _ v' rest' _ h'
    cases h' with
    | emptyList hb' =>
      cases Blanks.unique hb hb' rfl rfl
      exact ⟨rfl, rfl⟩
    | list h' => exact (not_empty_of_head h' hb (.inl rfl)).elim
    | number hn => exact (Number.not_of_head hn rfl).elim
  | list h ih =>
    intro _ v' rest' _ h'
    cases h' with
    | emptyList hb' => exact (not_empty_of_head h hb' (.inl rfl)).elim
    | list h' =>
      obtain ⟨rfl, rfl⟩ := ih _ rfl _ _ h'
      exact ⟨rfl, rfl⟩
    | number hn => exact (Number.not_of_head hn rfl).elim
  | emptyObject hb =>
    intro _ v' rest' _ h'
    cases h' with
    | emptyObject hb' =>
      cases Blanks.unique hb hb' rfl rfl
      exact ⟨rfl, rfl⟩
    | object h' => exact (not_empty_of_head h' hb (.inr rfl)).elim
    | number hn => exact (Number.not_of_head hn rfl).elim
  | object h ih =>
    intro _ v' rest' _ h'
    cases h' with
    | emptyObject hb' => exact (not_empty_of_head h hb' (.inr rfl)).elim
    | object h' =>
      obtain ⟨rfl, rfl⟩ := ih _ rfl _ _ h'
      exact ⟨rfl, rfl⟩
    | number hn => exact (Number.not_of_head hn rfl).elim
  | element hf h hb ih =>
    intro hr v' rest' hr' h'
    cases h' with
    | element hf' h' hb' =>
      obtain rfl := Blanks.unique hf hf' (Written.skipBlanks_eq h) (Written.skipBlanks_eq h')
      obtain ⟨rfl, rfl⟩ := ih (Blanks.bounded hb hr.bounded) _ _ (Blanks.bounded hb' hr'.bounded) h'
      exact ⟨rfl, Blanks.unique hb hb' hr.skipBlanks_eq hr'.skipBlanks_eq⟩
  | member hf hk hb _ ih =>
    intro hr m' rest' hr' h'
    cases h' with
    | member hf' hk' hb' h' =>
      cases Blanks.unique hf hf' rfl rfl
      obtain ⟨rfl, rfl⟩ := Pieces.unique hk hk'
      cases Blanks.unique hb hb' rfl rfl
      obtain ⟨rfl, rfl⟩ := ih hr _ _ hr' h'
      exact ⟨rfl, rfl⟩
  | lastElement _ ih =>
    rintro more rfl vs' more' h'
    cases h' with
    | lastElement h' =>
      obtain ⟨rfl, he⟩ := ih (stops_cons (by decide) more) _ _ (stops_cons (by decide) more') h'
      cases he
      exact ⟨rfl, rfl⟩
    | moreElements h' _ =>
      obtain ⟨-, he⟩ := ih (stops_cons (by decide) more) _ _ (stops_cons (by decide) _) h'
      cases he
  | moreElements _ _ ih ih' =>
    rintro more rfl vs' more' h'
    cases h' with
    | lastElement h' =>
      obtain ⟨-, he⟩ := ih (stops_cons (by decide) _) _ _ (stops_cons (by decide) more') h'
      cases he
    | moreElements h' tail =>
      obtain ⟨rfl, he⟩ := ih (stops_cons (by decide) _) _ _ (stops_cons (by decide) _) h'
      cases he
      obtain ⟨rfl, rfl⟩ := ih' more rfl _ _ tail
      exact ⟨rfl, rfl⟩
  | lastMember _ ih =>
    rintro more rfl ms' more' h'
    cases h' with
    | lastMember h' =>
      obtain ⟨rfl, he⟩ := ih (stops_cons (by decide) more) _ _ (stops_cons (by decide) more') h'
      cases he
      exact ⟨rfl, rfl⟩
    | moreMembers h' _ =>
      obtain ⟨-, he⟩ := ih (stops_cons (by decide) more) _ _ (stops_cons (by decide) _) h'
      cases he
  | moreMembers _ _ ih ih' =>
    rintro more rfl ms' more' h'
    cases h' with
    | lastMember h' =>
      obtain ⟨-, he⟩ := ih (stops_cons (by decide) _) _ _ (stops_cons (by decide) more') h'
      cases he
    | moreMembers h' tail =>
      obtain ⟨rfl, he⟩ := ih (stops_cons (by decide) _) _ _ (stops_cons (by decide) _) h'
      cases he
      obtain ⟨rfl, rfl⟩ := ih' more rfl _ _ tail
      exact ⟨rfl, rfl⟩

/-- A whole text is written from one value only. -/
theorem Written.unique {v v' : Json} {text : List Char} (h : Written (.element v) text [])
    (h' : Written (.element v') text []) : v' = v :=
  (Written.decides h (by simp [Stops]) v' [] (by simp [Stops]) h').1

end LetReturn.JsonUniqueness
