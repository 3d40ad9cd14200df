import LetReturn.JsonRecords
import LetReturn.Proofs.JsonValues

set_option autoImplicit false

namespace LetReturn.TypedValues
open JsonReading JsonStrings JsonNumbers JsonRecords JsonGrammar JsonScalars JsonValues

structure Reads {α : Type} (reader : Reader α) (Says : Json → α → Prop) : Prop where
  sound : ∀ {text rest : List Char} {value : α}, reader.read text = .ok (value, rest) →
    ∃ front v, Blanks text front ∧ Written (.value v) front rest ∧ Says v value
  complete : ∀ {text front rest : List Char} {v : Json} {value : α}, Blanks text front →
    Written (.value v) front rest → Paired v → Bounded rest → Says v value →
      reader.read text = .ok (value, rest)

def IsFlag (v : Json) (b : Bool) : Prop := v = .flag b

def IsText (v : Json) (s : String) : Prop := ∃ ps, v = .string ps ∧ chars? ps = some s.toList

/-- A natural number in plain digits that fits into 64 bits. -/
def IsCount (v : Json) (n : ℕ) : Prop :=
  ∃ ds, v = .number ⟨false, ds, none, none⟩ ∧ Nat.ofDigitChars 10 ds 0 = n ∧ n < 2 ^ 64

def IsList {α : Type} (Says : Json → α → Prop) (v : Json) (values : List α) : Prop :=
  ∃ vs, v = .list vs ∧ List.Forall₂ Says vs values

theorem blanks_of_skip_eq {text front : List Char} (h : skipBlanks text = front) :
    Blanks text front := by
  rw [← h]
  exact blanks_skipBlanks text

theorem reads_flag : Reads flag IsFlag where
  sound := by
    intro text rest value h
    change readFlag text = _ at h
    unfold readFlag at h
    split at h
    · rename_i more he
      obtain ⟨r, hw, hr⟩ := map_eq_ok.1 h
      cases hr
      rw [word_eq_ok.1 hw] at he
      exact ⟨_, .flag true, blanks_of_skip_eq he, .yes, rfl⟩
    · rename_i more he
      obtain ⟨r, hw, hr⟩ := map_eq_ok.1 h
      cases hr
      rw [word_eq_ok.1 hw] at he
      exact ⟨_, .flag false, blanks_of_skip_eq he, .no, rfl⟩
    · cases h
  complete := by
    rintro text front rest v value hb hv - - rfl
    change readFlag text = _
    cases hv with
    | yes => simp [readFlag, Blanks.skip_cons hb (by decide), word, Except.map]
    | no => simp [readFlag, Blanks.skip_cons hb (by decide), word, Except.map]

theorem reads_string : Reads string IsText where
  sound := by
    intro text rest value h
    change readText text = _ at h
    unfold readText at h
    split at h
    · rename_i more he
      obtain ⟨⟨cs, r⟩, hs, hr⟩ := map_eq_ok.1 h
      cases hr
      obtain ⟨ps, hps, hcs⟩ := stringTail_sound hs
      exact ⟨_, .string ps, blanks_of_skip_eq he, .string hps, ps, rfl, by simpa using hcs⟩
    · cases h
  complete := by
    rintro text front rest v value hb hv - - ⟨ps, rfl, hcs⟩
    change readText text = _
    cases hv with
    | string hps =>
      simp [readText, Blanks.skip_cons hb (by decide), Pieces.stringTail_eq hps hcs, Except.map]

theorem count?_eq_some_iff (m : Numeral) (n : ℕ) : m.count? = some n ↔
    ∃ ds, m = ⟨false, ds, none, none⟩ ∧ Nat.ofDigitChars 10 ds 0 = n ∧ n < 2 ^ 64 := by
  obtain ⟨negative, ds, f, e⟩ := m
  unfold Numeral.count?
  constructor
  · intro h
    simp only at h
    split_ifs at h with hplain hfits
    simp only [Bool.or_eq_true, not_or, Bool.not_eq_true, Option.isSome_eq_false_iff,
      Option.isNone_iff_eq_none] at hplain
    obtain ⟨⟨rfl, rfl⟩, rfl⟩ := hplain
    obtain rfl := Option.some.inj h
    exact ⟨ds, rfl, rfl, hfits⟩
  · rintro ⟨_, he, hvalue, hfits⟩
    cases he
    have hnatural : Integers.natural ds = n := hvalue
    have hsize : n < UInt64.size := hfits
    simp [hnatural, hsize]

theorem reads_count : Reads count IsCount where
  sound := by
    intro text rest value h
    change readCount text = _ at h
    unfold readCount at h
    split at h
    · cases h
    · rename_i c more he
      split at h
      · obtain ⟨⟨m, r⟩, hm, hcount⟩ := bind_eq_ok.1 h
        simp only at hcount
        split at hcount
        · rename_i n hn
          cases hcount
          obtain ⟨ds, rfl, hds⟩ := (count?_eq_some_iff m _).1 hn
          exact ⟨_, _, blanks_of_skip_eq he, .number (numeral_sound hm), ds, rfl, hds⟩
        · cases hcount
      · cases h
  complete := by
    rintro text front rest v value hb hv - hr ⟨ds, rfl, hds⟩
    change readCount text = _
    cases hv with
    | number hn =>
      obtain ⟨c, more, rfl, hc⟩ := Number.head hn
      have hcount := (count?_eq_some_iff _ _).2 ⟨ds, rfl, hds⟩
      simp [readCount, Blanks.skip_cons hb (starts_of_startsNumeral hc).1, hc,
        Number.numeral_eq hn hr, hcount, bind, Except.bind]

section Lists
variable {α : Type} {item : Reader α} {Says : Json → α → Prop} {text behind more rest : List Char}

def Lead : Bool → List Char → List Char → Prop
  | true, text, behind => text = behind
  | false, text, behind => Blanks text (',' :: behind)

theorem nextElement_end {first : Bool} (h : nextElement first text = .ok (false, rest)) :
    Blanks text (']' :: rest) := by
  unfold nextElement at h
  split at h
  · cases h
  · rename_i c r he
    split_ifs at h with hclose hfirst hcomma
    · cases h
      rw [hclose] at he
      exact blanks_of_skip_eq he
    · cases h
    · split at h
      · cases h
      · split_ifs at h
        cases h

theorem nextElement_more {first : Bool} (h : nextElement first text = .ok (true, rest)) :
    ∃ behind, Lead first text behind ∧ Blanks behind rest := by
  unfold nextElement at h
  split at h
  · cases h
  · rename_i c r he
    split_ifs at h with hclose hfirst hcomma
    · cases h
    · cases h
      rw [hfirst]
      exact ⟨text, rfl, blanks_of_skip_eq he⟩
    · split at h
      · cases h
      · rename_i d tail hd
        split_ifs at h
        cases h
        rw [hcomma] at he
        rw [Bool.eq_false_iff.2 hfirst]
        exact ⟨r, blanks_of_skip_eq he, blanks_of_skip_eq hd⟩

theorem Lead.nextElement_eq {first : Bool} {c : Char} (h : Lead first text behind)
    (hb : Blanks behind (c :: more)) (hc : Starts c) :
    nextElement first text = .ok (true, c :: more) := by
  cases first with
  | true =>
    have htext : text = behind := h
    simp [nextElement, htext, Blanks.skip_cons hb hc.1, hc.2.1]
  | false =>
    have htext : Blanks text (',' :: behind) := h
    simp [nextElement, Blanks.skip_cons htext (by decide), Blanks.skip_cons hb hc.1, hc.2.1]

theorem elements_sound (hitem : Reads item Says) {first : Bool} {values : List α}
    (h : elements item first text = .ok (values, rest)) :
    (values = [] ∧ Blanks text (']' :: rest)) ∨ ∃ vs behind, Lead first text behind ∧
      Written (.elements vs) behind (']' :: rest) ∧ List.Forall₂ Says vs values := by
  fun_induction elements item first text generalizing values rest with
  | case1 => cases h
  | case2 first text r hn =>
    cases h
    exact .inl ⟨rfl, nextElement_end hn⟩
  | case3 => cases h
  | case4 first text r hn value tail hi ih =>
    obtain ⟨⟨values, t⟩, ht, he⟩ := map_eq_ok.1 h
    cases he
    obtain ⟨behind, hlead, hbehind⟩ := nextElement_more hn
    obtain ⟨front, v, hfront, hv, hmean⟩ := hitem.sound hi
    have hblanks := Blanks.trans hbehind hfront
    obtain ⟨rfl, hclose⟩ | ⟨vs, after, hcomma, hvs, hsay⟩ := ih ht
    · exact .inr ⟨[v], behind, hlead, .lastElement (.element hblanks hv hclose),
        .cons hmean .nil⟩
    · exact .inr ⟨v :: vs, behind, hlead, .moreElements (.element hblanks hv hcomma) hvs,
        .cons hmean hsay⟩

theorem elements_eq (first : Bool) (text : List Char) : elements item first text =
    nextElement first text >>= fun next =>
      if next.1 then item.read next.2 >>= fun front =>
        (elements item false front.2).map fun tail => (front.1 :: tail.1, tail.2)
      else .ok ([], next.2) := by
  rw [elements]
  split
  · simp_all [bind, Except.bind]
  · simp_all [bind, Except.bind]
  · split <;> simp_all [bind, Except.bind]

theorem elements_close {first : Bool} (h : Blanks text (']' :: rest)) :
    elements item first text = .ok ([], rest) := by
  have hn : nextElement first text = .ok (false, rest) := by
    simp [nextElement, Blanks.skip_cons h (by decide)]
  simp [elements_eq, hn, bind, Except.bind]

theorem elements_cons {first : Bool} {value : α} (hn : nextElement first text = .ok (true, behind))
    (hi : item.read behind = .ok (value, rest)) : elements item first text =
      (elements item false rest).map fun tail => (value :: tail.1, tail.2) := by
  rw [elements_eq, hn]
  simp [hi, bind, Except.bind]

theorem elements_complete (hitem : Reads item Says) {vs : List Json} {values : List α}
    (h : Written (.elements vs) text (']' :: rest)) (hp : ∀ v ∈ vs, Paired v)
    (hmean : List.Forall₂ Says vs values) (first : Bool) {start : List Char}
    (hlead : Lead first start text) : elements item first start = .ok (values, rest) := by
  induction hmean generalizing text first start with
  | nil => cases h
  | @cons v value vs values hv _ ih =>
    -- The first element, whether it is the last one or not.
    have hread : ∀ {front behind tail : List Char}, Blanks text front →
        Written (.value v) front behind → Blanks behind tail → Bounded tail →
          elements item first start =
            (elements item false behind).map fun tail => (value :: tail.1, tail.2) := by
      intro front behind tail hf hw hb hr
      obtain ⟨c, more, -, hc, hfront⟩ := Written.head hw
      have hnext := Lead.nextElement_eq hlead (hfront v rfl ▸ hf) hc
      rw [← hfront v rfl] at hnext
      exact elements_cons hnext (hitem.complete .none hw (hp v List.mem_cons_self)
        (Blanks.bounded hb hr) hv)
    cases h with
    | lastElement h =>
      cases h with
      | element hf hw hb =>
        rw [hread hf hw hb (bounded_cons (by decide) rest), elements_close hb]
        cases ‹List.Forall₂ Says [] values›
        rfl
    | moreElements h htail =>
      cases h with
      | element hf hw hb =>
        rw [hread hf hw hb (bounded_cons (by decide) _),
          ih htail (fun v hv => hp v (List.mem_cons_of_mem _ hv)) false hb]
        rfl

theorem reads_list (hitem : Reads item Says) : Reads (list item) (IsList Says) where
  sound := by
    intro text rest values h
    change readList item text = _ at h
    unfold readList at h
    split at h
    · rename_i more he
      obtain ⟨rfl, hclose⟩ | ⟨vs, behind, hlead, hvs, hmean⟩ := elements_sound hitem h
      · exact ⟨_, .list [], blanks_of_skip_eq he, .emptyList hclose, [], rfl, .nil⟩
      · obtain rfl : more = behind := hlead
        exact ⟨_, .list vs, blanks_of_skip_eq he, .list hvs, vs, rfl, hmean⟩
    · cases h
  complete := by
    rintro text front rest v values hb hv hp - ⟨vs, rfl, hmean⟩
    change readList item text = _
    cases hp with
    | list hp =>
      cases hv with
      | emptyList hclose =>
        cases hmean
        simp [readList, Blanks.skip_cons hb (by decide), elements_close hclose]
      | list hvs =>
        simp [readList, Blanks.skip_cons hb (by decide),
          elements_complete hitem hvs hp hmean true rfl]

end Lists

end LetReturn.TypedValues
