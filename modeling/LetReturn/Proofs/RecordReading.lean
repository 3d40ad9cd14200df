import LetReturn.ReportReading
import LetReturn.Proofs.TypedValues
import Mathlib.Data.List.Nodup

set_option autoImplicit false

/-!
# Reading records

A record is read from an object in which each field occurs once, or from a list of its fields in
order (`Holds`). What reading the members does to the fields read so far is followed member by
member (`Steps`), and comes down to what each field gains from the values under its name
(`Steps.gains`, `exists_steps`): so neither the order of the members nor those with other names
matter.
-/
namespace LetReturn.RecordReading
open JsonReading JsonStrings JsonSkipping JsonRecords ReportReading
open JsonGrammar JsonScalars JsonValues TypedValues

/-- The values of the members with this key. -/
def valuesUnder (key : String) (ms : List (List Piece × Json)) : List Json :=
  ms.filterMap fun m => if chars? m.1 = some key.toList then some m.2 else none

/-- The values of the named fields in order. -/
inductive Holds (keys : List String) : Json → List Json → Prop where
  | object {ms : List (List Piece × Json)} {vs : List Json}
      (h : keys.map (valuesUnder · ms) = vs.map ([·])) : Holds keys (.object ms) vs
  | list {vs : List Json} (h : vs.length = keys.length) : Holds keys (.list vs) vs

/-- A place of a record: what it holds, and what a value has to say to fill it. -/
structure Slot (σ : Type) where
  name : String
  Value : Type
  get : σ → Option Value
  put : Value → σ → σ
  reader : Reader Value
  Says : Json → Value → Prop
  reads : Reads reader Says
  get_put : ∀ value s, get (put value s) = some value

variable {σ α : Type}

def Slot.field (slot : Slot σ) : JsonRecords.Field σ where
  name := slot.name
  filled s := (slot.get s).isSome
  fill s := place slot.reader fun value => slot.put value s

/-- The slots of a shape: each in a place of its own, and the record is there once all are
filled. -/
structure Layout (shape : Shape σ α) (slots : List (Slot σ)) : Prop where
  fields_eq : shape.fields = slots.map Slot.field
  nodup : (slots.map Slot.name).Nodup
  apart : ∀ a ∈ slots, ∀ b ∈ slots, a.name ≠ b.name → ∀ value s, a.get (b.put value s) = a.get s
  start_eq : ∀ slot ∈ slots, slot.get shape.start = none
  finish_congr : ∀ s t, (∀ slot ∈ slots, slot.get s = slot.get t) → shape.finish s = shape.finish t
  finish_none : ∀ s, ∀ slot ∈ slots, slot.get s = none → shape.finish s = none

inductive Step (slots : List (Slot σ)) (s : σ) (key : String) (v : Json) : σ → Prop where
  | fill {slot : Slot σ} {value : slot.Value} (hs : slot ∈ slots) (hn : slot.name = key)
      (he : slot.get s = none) (hv : slot.Says v value) : Step slots s key v (slot.put value s)
  | pass (hn : ∀ slot ∈ slots, slot.name ≠ key) : Step slots s key v s

inductive Steps (slots : List (Slot σ)) : σ → List (List Piece × Json) → σ → Prop where
  | done {s : σ} : Steps slots s [] s
  | more {s t u : σ} {k : List Piece} {key : String} {v : Json} {ms : List (List Piece × Json)}
      (hk : chars? k = some key.toList) (h : Step slots s key v t) (tail : Steps slots t ms u) :
      Steps slots s ((k, v) :: ms) u

inductive Puts : List (Slot σ) → σ → List Json → σ → Prop where
  | done {s : σ} : Puts [] s [] s
  | more {slot : Slot σ} {slots : List (Slot σ)} {s u : σ} {v : Json} {vs : List Json}
      {value : slot.Value} (hv : slot.Says v value) (tail : Puts slots (slot.put value s) vs u) :
      Puts (slot :: slots) s (v :: vs) u

section Texts
variable {shape : Shape σ α} {slots : List (Slot σ)} {text rest : List Char} {s t u : σ}

theorem fill_sound (slot : Slot σ)
    (h : (slot.field.fill s).read text = .ok (t, rest)) : ∃ front v value,
      Blanks text front ∧ Written (.value v) front rest ∧ slot.Says v value ∧
        t = slot.put value s := by
  obtain ⟨⟨value, r⟩, hr, he⟩ := map_eq_ok.1 h
  cases he
  obtain ⟨front, v, hb, hv, hmean⟩ := slot.reads.sound hr
  exact ⟨front, v, value, hb, hv, hmean, rfl⟩

theorem fill_complete (slot : Slot σ) {front : List Char} {v : Json} {value : slot.Value}
    (hb : Blanks text front) (hv : Written (.value v) front rest) (hp : Paired v)
    (hr : Bounded rest) (hmean : slot.Says v value) :
    (slot.field.fill s).read text = .ok (slot.put value s, rest) := by
  simp [Slot.field, place, slot.reads.complete hb hv hp hr hmean, Except.map]

theorem Layout.find?_cases (hl : Layout shape slots) (key : String) :
    (∃ slot ∈ slots, slot.name = key ∧ shape.fields.find? (·.name == key) = some slot.field) ∨
      ((∀ slot ∈ slots, slot.name ≠ key) ∧ shape.fields.find? (·.name == key) = none) := by
  rw [hl.fields_eq, List.find?_map]
  cases hf : slots.find? ((fun field => field.name == key) ∘ Slot.field) with
  | some slot =>
    have hn := List.find?_some hf
    exact .inl ⟨slot, List.mem_of_find?_eq_some hf, by simpa [Slot.field] using hn, rfl⟩
  | none =>
    rw [List.find?_eq_none] at hf
    refine .inr ⟨fun slot hs => ?_, rfl⟩
    simpa [Slot.field] using hf slot hs

theorem Layout.eq_of_name (hl : Layout shape slots) {a b : Slot σ} (ha : a ∈ slots)
    (hb : b ∈ slots) (h : a.name = b.name) : a = b :=
  List.inj_on_of_nodup_map hl.nodup ha hb h

theorem member_sound (hl : Layout shape slots) {key : String}
    (h : member shape s key text = .ok (t, rest)) : ∃ after front v,
      Blanks text (':' :: after) ∧ Blanks after front ∧ Written (.value v) front rest ∧
        Step slots s key v t := by
  unfold member at h
  obtain ⟨slot, hs, hn, hf⟩ | ⟨hn, hf⟩ := hl.find?_cases key
  · rw [hf] at h
    simp only at h
    split_ifs at h with hfilled
    obtain ⟨after, hm, hfill⟩ := bind_eq_ok.1 h
    obtain ⟨front, v, value, hb, hv, hmean, rfl⟩ := fill_sound slot hfill
    have hempty : slot.get s = none := by simpa [Slot.field] using hfilled
    exact ⟨after, front, v, mark_sound hm, hb, hv, .fill hs hn hempty hmean⟩
  · rw [hf] at h
    obtain ⟨after, hm, hpass⟩ := bind_eq_ok.1 h
    obtain ⟨r, hr, he⟩ := map_eq_ok.1 hpass
    cases he
    obtain ⟨front, v, hb, hv⟩ := passValue_sound hr
    exact ⟨after, front, v, mark_sound hm, hb, hv, .pass hn⟩

theorem member_complete (hl : Layout shape slots) {key : String} {after front : List Char}
    {v : Json} (hc : Blanks text (':' :: after)) (hb : Blanks after front)
    (hv : Written (.value v) front rest) (hp : Paired v) (hr : Bounded rest)
    (h : Step slots s key v t) : member shape s key text = .ok (t, rest) := by
  have hm := Blanks.mark_eq hc (by decide)
  unfold member
  cases h with
  | @fill slot value hs hn he hmean =>
    obtain ⟨slot', hs', hn', hf⟩ | ⟨hnone, -⟩ := hl.find?_cases key
    · obtain rfl := hl.eq_of_name hs' hs (hn'.trans hn.symm)
      have hfilled : slot'.field.filled s = false := by simp [Slot.field, he]
      simp [hf, hfilled, hm, fill_complete slot' hb hv hp hr hmean, bind, Except.bind]
    · exact absurd hn (hnone slot hs)
  | pass hn =>
    obtain ⟨slot, hs, hn', -⟩ | ⟨-, hf⟩ := hl.find?_cases key
    · exact absurd hn' (hn slot hs)
    · simp [hf, hm, Written.passValue_eq hv hb hr, bind, Except.bind, Except.map]

theorem nextMember_end {first : Bool} (h : nextMember first text = .ok (false, rest)) :
    Blanks text ('}' :: rest) := by
  unfold nextMember at h
  split at h
  · cases h
  · rename_i c r he
    split_ifs at h with hclose hfirst hquote hcomma
    · cases h
      rw [hclose] at he
      exact blanks_of_skip_eq he
    · cases h
    · obtain ⟨q, -, hq⟩ := map_eq_ok.1 h
      cases hq

theorem nextMember_more {first : Bool} (h : nextMember first text = .ok (true, rest)) :
    ∃ behind, Lead first text behind ∧ Blanks behind ('"' :: rest) := by
  unfold nextMember at h
  split at h
  · cases h
  · rename_i c r he
    split_ifs at h with hclose hfirst hquote hcomma
    · cases h
    · cases h
      rw [hquote] at he
      rw [hfirst]
      exact ⟨text, rfl, blanks_of_skip_eq he⟩
    · obtain ⟨q, hm, hq⟩ := map_eq_ok.1 h
      cases hq
      rw [hcomma] at he
      rw [Bool.eq_false_iff.2 hfirst]
      exact ⟨r, blanks_of_skip_eq he, mark_sound hm⟩

theorem Lead.nextMember_eq {first : Bool} {behind : List Char} (h : Lead first text behind)
    (hb : Blanks behind ('"' :: rest)) : nextMember first text = .ok (true, rest) := by
  cases first with
  | true =>
    have htext : text = behind := h
    simp [nextMember, htext, Blanks.skip_cons hb (by decide)]
  | false =>
    have htext : Blanks text (',' :: behind) := h
    simp [nextMember, Blanks.skip_cons htext (by decide), Blanks.mark_eq hb (by decide),
      Except.map]

theorem members_sound (hl : Layout shape slots) {first : Bool}
    (h : members shape s first text = .ok (u, rest)) :
    (u = s ∧ Blanks text ('}' :: rest)) ∨ ∃ ms behind, Lead first text behind ∧
      Written (.members ms) behind ('}' :: rest) ∧ Steps slots s ms u := by
  fun_induction members shape s first text with
  | case1 => cases h
  | case2 s first text r hn =>
    cases h
    exact .inl ⟨rfl, nextMember_end hn⟩
  | case3 => cases h
  | case4 => cases h
  | case5 s first text inside hn key behind hk t tail hm ih =>
    obtain ⟨start, hlead, hstart⟩ := nextMember_more hn
    obtain ⟨k, hpieces, hchars⟩ := stringTail_sound hk
    obtain ⟨after, front, v, hcolon, hfront, hv, hstep⟩ := member_sound hl hm
    have hkey : chars? k = some (String.ofList key).toList := by rw [hchars, String.toList_ofList]
    obtain ⟨rfl, hclose⟩ | ⟨ms, later, hcomma, hms, hsteps⟩ := ih h
    · exact .inr ⟨[(k, v)], start, hlead,
        .lastMember (.member hstart hpieces hcolon (.element hfront hv hclose)),
        .more hkey hstep .done⟩
    · exact .inr ⟨(k, v) :: ms, start, hlead,
        .moreMembers (.member hstart hpieces hcolon (.element hfront hv hcomma)) hms,
        .more hkey hstep hsteps⟩

theorem members_eq (shape : Shape σ α) (s : σ) (first : Bool) (text : List Char) :
    members shape s first text = nextMember first text >>= fun next =>
      if next.1 then stringTail next.2 >>= fun key =>
        member shape s (String.ofList key.1) key.2 >>= fun front =>
          members shape front.1 false front.2
      else .ok (s, next.2) := by
  rw [members]
  split
  · simp_all [bind, Except.bind]
  · simp_all [bind, Except.bind]
  · split
    · simp_all [bind, Except.bind]
    · split <;> simp_all [bind, Except.bind]

theorem members_close {first : Bool} (h : Blanks text ('}' :: rest)) :
    members shape s first text = .ok (s, rest) := by
  have hn : nextMember first text = .ok (false, rest) := by
    simp [nextMember, Blanks.skip_cons h (by decide)]
  simp [members_eq, hn, bind, Except.bind]

theorem members_cons {first : Bool} {inside behind : List Char} {key : List Char}
    (hn : nextMember first text = .ok (true, inside))
    (hk : stringTail inside = .ok (key, behind))
    (hm : member shape s (String.ofList key) behind = .ok (t, rest)) :
    members shape s first text = members shape t false rest := by
  rw [members_eq, hn]
  simp [hk, hm, bind, Except.bind]

theorem members_complete (hl : Layout shape slots) {ms : List (List Piece × Json)}
    (h : Written (.members ms) text ('}' :: rest)) (hp : ∀ m ∈ ms, Paired m.2)
    (hsteps : Steps slots s ms u) (first : Bool) {start : List Char}
    (hlead : Lead first start text) : members shape s first start = .ok (u, rest) := by
  induction hsteps generalizing text first start with
  | done => cases h
  | @more s t u k key v ms hk hstep hsteps ih =>
    have hread : ∀ {inside behind after front later tail : List Char},
        Blanks text ('"' :: inside) → Pieces k inside behind → Blanks behind (':' :: after) →
          Blanks after front → Written (.value v) front later → Blanks later tail →
            Bounded tail → members shape s first start = members shape t false later := by
      intro inside behind after front later tail hf hpieces hcolon hb hv hl' hr
      have hpaired : Paired v := hp (k, v) List.mem_cons_self
      have hmember := member_complete hl hcolon hb hv hpaired (Blanks.bounded hl' hr) hstep
      rw [← String.ofList_toList (s := key)] at hmember
      exact members_cons (Lead.nextMember_eq hlead hf) (Pieces.stringTail_eq hpieces hk) hmember
    cases h with
    | lastMember h =>
      cases h with
      | member hf hpieces hcolon h =>
        cases h with
        | element hb hv hl' =>
          rw [hread hf hpieces hcolon hb hv hl' (bounded_cons (by decide) rest),
            members_close hl']
          cases hsteps
          rfl
    | moreMembers h htail =>
      cases h with
      | member hf hpieces hcolon h =>
        cases h with
        | element hb hv hl' =>
          rw [hread hf hpieces hcolon hb hv hl' (bounded_cons (by decide) _)]
          exact ih htail (fun m hm => hp m (List.mem_cons_of_mem _ hm)) false hl'

theorem positions_sound {first : Bool}
    (h : positions (slots.map Slot.field) first s text = .ok (u, rest)) :
    (slots = [] ∧ u = s ∧ Blanks text (']' :: rest)) ∨ ∃ vs behind, Lead first text behind ∧
      Written (.elements vs) behind (']' :: rest) ∧ Puts slots s vs u := by
  induction slots generalizing first s text with
  | nil =>
    obtain ⟨r, hm, he⟩ := map_eq_ok.1 h
    cases he
    exact .inl ⟨rfl, rfl, mark_sound hm⟩
  | cons slot slots ih =>
    rw [List.map_cons, positions] at h
    obtain ⟨⟨more, r1⟩, hn, h⟩ := bind_eq_ok.1 h
    simp only at h
    split at h
    · rename_i hmore
      rw [hmore] at hn
      obtain ⟨⟨t, r2⟩, hfill, h⟩ := bind_eq_ok.1 h
      obtain ⟨behind, hlead, hbehind⟩ := nextElement_more hn
      obtain ⟨front, v, value, hb, hv, hmean, rfl⟩ := fill_sound slot hfill
      have hfront := Blanks.trans hbehind hb
      obtain ⟨rfl, rfl, hclose⟩ | ⟨vs, after, hcomma, hvs, hputs⟩ := ih h
      · exact .inr ⟨[v], behind, hlead, .lastElement (.element hfront hv hclose),
          .more hmean .done⟩
      · exact .inr ⟨v :: vs, behind, hlead, .moreElements (.element hfront hv hcomma) hvs,
          .more hmean hputs⟩
    · cases h

theorem positions_complete {vs : List Json} (h : Written (.elements vs) text (']' :: rest))
    (hp : ∀ v ∈ vs, Paired v) (hputs : Puts slots s vs u) (first : Bool) {start : List Char}
    (hlead : Lead first start text) :
    positions (slots.map Slot.field) first s start = .ok (u, rest) := by
  induction hputs generalizing text first start with
  | done => cases h
  | @more slot slots s u v vs value hmean hputs ih =>
    have hread : ∀ {front behind tail : List Char}, Blanks text front →
        Written (.value v) front behind → Blanks behind tail → Bounded tail →
          positions ((slot :: slots).map Slot.field) first s start =
            positions (slots.map Slot.field) false (slot.put value s) behind := by
      intro front behind tail hf hw hb hr
      obtain ⟨c, more, -, hc, hfront⟩ := Written.head hw
      have hnext := Lead.nextElement_eq hlead (hfront v rfl ▸ hf) hc
      rw [← hfront v rfl] at hnext
      have hfill := fill_complete (s := s) slot .none hw (hp v List.mem_cons_self)
        (Blanks.bounded hb hr) hmean
      simp [positions, hnext, hfill, bind, Except.bind]
    cases h with
    | lastElement h =>
      cases h with
      | element hf hw hb =>
        rw [hread hf hw hb (bounded_cons (by decide) rest)]
        cases hputs
        simp [positions, Blanks.mark_eq hb (by decide), Except.map]
    | moreElements h htail =>
      cases h with
      | element hf hw hb =>
        rw [hread hf hw hb (bounded_cons (by decide) _)]
        exact ih htail (fun v hv => hp v (List.mem_cons_of_mem _ hv)) false hb

end Texts

section Fields
variable {shape : Shape σ α} {slots : List (Slot σ)} {s t u : σ}

/-- From what a slot holds before some values to what it holds behind them. -/
inductive Slot.Gains (slot : Slot σ) :
    Option slot.Value → List Json → Option slot.Value → Prop where
  | stay {held : Option slot.Value} : Gains slot held [] held
  | gain {v : Json} {value : slot.Value} (hv : slot.Says v value) :
      Gains slot none [v] (some value)

section Inversion
variable {slot : Slot σ} {held got : Option slot.Value} {v : Json} {vs : List Json}

theorem Slot.Gains.of_nil (h : slot.Gains held [] got) : got = held := by
  cases h
  rfl

theorem Slot.Gains.of_some {value : slot.Value} (h : slot.Gains (some value) vs got) :
    vs = [] ∧ got = some value := by
  cases h
  exact ⟨rfl, rfl⟩

theorem Slot.Gains.of_cons (h : slot.Gains held (v :: vs) got) :
    held = none ∧ vs = [] ∧ ∃ value, slot.Says v value ∧ got = some value := by
  cases h with
  | gain hmean => exact ⟨rfl, rfl, _, hmean, rfl⟩

theorem Slot.Gains.of_none {value : slot.Value} (h : slot.Gains none vs (some value)) :
    ∃ v, vs = [v] ∧ slot.Says v value := by
  cases h with
  | gain hmean => exact ⟨_, rfl, hmean⟩

end Inversion

theorem valuesUnder_nil (key : String) : valuesUnder key [] = [] := rfl

theorem valuesUnder_cons_eq {k : List Piece} {key : String} (hk : chars? k = some key.toList)
    (v : Json) (ms : List (List Piece × Json)) :
    valuesUnder key ((k, v) :: ms) = v :: valuesUnder key ms := by
  simp [valuesUnder, hk]

theorem valuesUnder_cons_ne {k : List Piece} {key key' : String}
    (hk : chars? k = some key.toList) (hne : key ≠ key') (v : Json)
    (ms : List (List Piece × Json)) :
    valuesUnder key' ((k, v) :: ms) = valuesUnder key' ms := by
  simp [valuesUnder, hk, String.toList_inj, hne]

theorem Steps.gains (hl : Layout shape slots) {ms : List (List Piece × Json)}
    (h : Steps slots s ms u) {slot : Slot σ} (hs : slot ∈ slots) :
    slot.Gains (slot.get s) (valuesUnder slot.name ms) (slot.get u) := by
  induction h with
  | done => exact .stay
  | @more s t u k key v ms hk hstep _ ih =>
    cases hstep with
    | @fill slot' value hs' hn he hmean =>
      by_cases hsame : slot'.name = slot.name
      · obtain rfl := hl.eq_of_name hs' hs hsame
        rw [slot'.get_put] at ih
        rw [hn, valuesUnder_cons_eq hk, he]
        rw [hn] at ih
        obtain ⟨hnil, hget⟩ := ih.of_some
        rw [hnil, hget]
        exact .gain hmean
      · rw [hl.apart slot hs slot' hs' (fun h => hsame h.symm)] at ih
        rwa [valuesUnder_cons_ne hk (hn ▸ hsame)]
    | pass hn => rwa [valuesUnder_cons_ne hk (fun h => hn slot hs h.symm)]

/-- The members can be read one after another if each slot can take what stands under its name. -/
theorem exists_steps (hl : Layout shape slots) {ms : List (List Piece × Json)}
    (hk : ∀ m ∈ ms, (chars? m.1).isSome)
    (h : ∀ slot ∈ slots, slot.Gains (slot.get s) (valuesUnder slot.name ms) (slot.get t)) :
    ∃ u, Steps slots s ms u ∧ ∀ slot ∈ slots, slot.get u = slot.get t := by
  induction ms generalizing s with
  | nil =>
    exact ⟨s, .done, fun slot hs => (h slot hs).of_nil.symm⟩
  | cons m ms ih =>
    obtain ⟨k, v⟩ := m
    obtain ⟨cs, hcs⟩ := Option.isSome_iff_exists.1 (hk (k, v) List.mem_cons_self)
    have hkey : chars? k = some (String.ofList cs).toList := by rw [hcs, String.toList_ofList]
    generalize String.ofList cs = key at hkey
    have hkeys : ∀ m ∈ ms, (chars? m.1).isSome := fun m hm => hk m (List.mem_cons_of_mem _ hm)
    by_cases hmem : ∃ slot ∈ slots, slot.name = key
    · obtain ⟨slot, hs, rfl⟩ := hmem
      have hslot := h slot hs
      rw [valuesUnder_cons_eq hkey] at hslot
      obtain ⟨hheld, hrest, value, hmean, hgot⟩ := hslot.of_cons
      have hstep : Step slots s slot.name v (slot.put value s) := .fill hs rfl hheld hmean
      obtain ⟨u, hsteps, hu⟩ := ih (s := slot.put value s) hkeys fun slot' hs' => by
        by_cases hsame : slot'.name = slot.name
        · obtain rfl := hl.eq_of_name hs' hs hsame
          rw [slot'.get_put, hgot, hrest]
          exact .stay
        · rw [hl.apart slot' hs' slot hs hsame]
          have hother := h slot' hs'
          rwa [valuesUnder_cons_ne hkey (fun h => hsame h.symm)] at hother
      exact ⟨u, .more hkey hstep hsteps, hu⟩
    · have hnone : ∀ slot ∈ slots, slot.name ≠ key := fun slot hs hn => hmem ⟨slot, hs, hn⟩
      obtain ⟨u, hsteps, hu⟩ := ih (s := s) hkeys fun slot hs => by
        have hother := h slot hs
        rwa [valuesUnder_cons_ne hkey (fun h => hnone slot hs h.symm)] at hother
      exact ⟨u, .more hkey (.pass hnone) hsteps, hu⟩

def Filled (slots : List (Slot σ)) (vs : List Json) (u : σ) : Prop :=
  List.Forall₂ (fun slot v => ∃ value, slot.Says v value ∧ slot.get u = some value) slots vs

/-- The record that a value holds: its fields are there, and nothing else decides. -/
def SaysRecord (shape : Shape σ α) (slots : List (Slot σ)) (v : Json) (value : α) : Prop :=
  ∃ vs u, Holds (slots.map Slot.name) v vs ∧ Filled slots vs u ∧ shape.finish u = some value

theorem exists_filled {ms : List (List Piece × Json)}
    (h : ∀ slot ∈ slots, ∃ v value, valuesUnder slot.name ms = [v] ∧ slot.Says v value ∧
      slot.get u = some value) :
    ∃ vs, (slots.map Slot.name).map (valuesUnder · ms) = vs.map ([·]) ∧ Filled slots vs u := by
  induction slots with
  | nil => exact ⟨[], rfl, .nil⟩
  | cons slot slots ih =>
    obtain ⟨v, value, hv, hmean, hget⟩ := h slot List.mem_cons_self
    obtain ⟨vs, hvs, hfilled⟩ := ih fun slot hs => h slot (List.mem_cons_of_mem _ hs)
    refine ⟨v :: vs, ?_, .cons ⟨value, hmean, hget⟩ hfilled⟩
    simp only [List.map_cons, hv, hvs]

theorem Steps.filled (hl : Layout shape slots) {ms : List (List Piece × Json)} {value : α}
    (h : Steps slots shape.start ms u) (hf : shape.finish u = some value) :
    ∃ vs, Holds (slots.map Slot.name) (.object ms) vs ∧ Filled slots vs u := by
  have hslots : ∀ slot ∈ slots, ∃ v value, valuesUnder slot.name ms = [v] ∧ slot.Says v value ∧
      slot.get u = some value := by
    intro slot hs
    have hgains := h.gains hl hs
    rw [hl.start_eq slot hs] at hgains
    cases hget : slot.get u with
    | none =>
      rw [hl.finish_none u slot hs hget] at hf
      cases hf
    | some held =>
      rw [hget] at hgains
      obtain ⟨v, hv, hmean⟩ := hgains.of_none
      exact ⟨v, held, hv, hmean, rfl⟩
  obtain ⟨vs, hvs, hfilled⟩ := exists_filled hslots
  exact ⟨vs, .object hvs, hfilled⟩

theorem Filled.gains {ms : List (List Piece × Json)} {vs : List Json} (h : Filled slots vs u)
    (hvs : (slots.map Slot.name).map (valuesUnder · ms) = vs.map ([·])) :
    ∀ slot ∈ slots, slot.Gains none (valuesUnder slot.name ms) (slot.get u) := by
  induction h with
  | nil => simp
  | cons hfirst _ ih =>
    obtain ⟨value, hmean, hget⟩ := hfirst
    simp only [List.map_cons, List.cons.injEq] at hvs
    rw [List.forall_mem_cons, hvs.1, hget]
    exact ⟨.gain hmean, ih hvs.2⟩

/-- No later put touches what an earlier slot holds. -/
def Apart (a b : Slot σ) : Prop := ∀ value s, a.get (b.put value s) = a.get s

theorem Layout.pairwise_apart (hl : Layout shape slots) : slots.Pairwise Apart := by
  have hnames := List.pairwise_map.1 hl.nodup
  exact hnames.imp_of_mem fun ha hb hne => hl.apart _ ha _ hb hne

theorem Puts.get_eq {a : Slot σ} {vs : List Json} (h : Puts slots s vs u)
    (ha : ∀ b ∈ slots, Apart a b) : a.get u = a.get s := by
  induction h with
  | done => rfl
  | more _ _ ih =>
    rw [List.forall_mem_cons] at ha
    rw [ih ha.2, ha.1]

theorem Puts.filled {vs : List Json} (h : Puts slots s vs u) (hap : slots.Pairwise Apart) :
    Filled slots vs u := by
  induction h with
  | done => exact .nil
  | @more slot slots s u v vs value hmean hputs ih =>
    rw [List.pairwise_cons] at hap
    refine .cons ⟨value, hmean, ?_⟩ (ih hap.2)
    rw [hputs.get_eq hap.1, slot.get_put]

theorem exists_puts {vs : List Json} (h : Filled slots vs t) (hap : slots.Pairwise Apart) :
    ∀ s, ∃ u, Puts slots s vs u ∧ ∀ slot ∈ slots, slot.get u = slot.get t := by
  induction h with
  | nil => exact fun s => ⟨s, .done, by simp⟩
  | @cons slot v slots vs hfirst _ ih =>
    intro s
    obtain ⟨value, hmean, hget⟩ := hfirst
    rw [List.pairwise_cons] at hap
    obtain ⟨u, hputs, hu⟩ := ih hap.2 (slot.put value s)
    refine ⟨u, .more hmean hputs, ?_⟩
    rw [List.forall_mem_cons, hputs.get_eq hap.1, slot.get_put, hget]
    exact ⟨rfl, hu⟩

theorem finished_eq_ok {text rest : List Char} {value : α} :
    finished shape s text = .ok (value, rest) ↔ shape.finish s = some value ∧ text = rest := by
  unfold finished
  split <;> simp_all

/-- A record in its list form: the values one after another. -/
theorem positions_finished (hl : Layout shape slots) {text rest : List Char} {value : α}
    (h : positions shape.fields true shape.start text >>= (fun p => finished shape p.1 p.2) =
      .ok (value, rest)) :
    ∃ v, Written (.value v) ('[' :: text) rest ∧ SaysRecord shape slots v value := by
  obtain ⟨⟨u, r⟩, hp, hf⟩ := bind_eq_ok.1 h
  obtain ⟨hfinish, rfl⟩ := finished_eq_ok.1 hf
  rw [hl.fields_eq] at hp
  obtain ⟨rfl, rfl, hclose⟩ | ⟨vs, behind, hlead, hvs, hputs⟩ := positions_sound hp
  · exact ⟨_, .emptyList hclose, [], _, .list rfl, .nil, hfinish⟩
  · obtain rfl : text = behind := hlead
    have hfilled := hputs.filled hl.pairwise_apart
    have hlen : vs.length = (slots.map Slot.name).length := by
      rw [List.length_map, hfilled.length_eq]
    exact ⟨_, .list hvs, vs, u, .list hlen, hfilled, hfinish⟩

/-- A record in its object form: members under any keys in any order. -/
theorem members_finished (hl : Layout shape slots) {text rest : List Char} {value : α}
    (h : members shape shape.start true text >>= (fun p => finished shape p.1 p.2) =
      .ok (value, rest)) :
    ∃ v, Written (.value v) ('{' :: text) rest ∧ SaysRecord shape slots v value := by
  obtain ⟨⟨u, r⟩, hp, hf⟩ := bind_eq_ok.1 h
  obtain ⟨hfinish, rfl⟩ := finished_eq_ok.1 hf
  obtain ⟨rfl, hclose⟩ | ⟨ms, behind, hlead, hms, hsteps⟩ := members_sound hl hp
  · obtain ⟨vs, hholds, hfilled⟩ := Steps.filled hl .done hfinish
    exact ⟨_, .emptyObject hclose, vs, _, hholds, hfilled, hfinish⟩
  · obtain rfl : text = behind := hlead
    obtain ⟨vs, hholds, hfilled⟩ := hsteps.filled hl hfinish
    exact ⟨_, .object hms, vs, u, hholds, hfilled, hfinish⟩

theorem finished_positions (hl : Layout shape slots) {text front rest : List Char}
    {vs : List Json} {value : α} (hb : Blanks text front)
    (hv : Written (.value (.list vs)) front rest) (hp : ∀ v ∈ vs, Paired v)
    (hfilled : Filled slots vs u) (hfinish : shape.finish u = some value) :
    readRecord shape text = .ok (value, rest) := by
  obtain ⟨t, hputs, ht⟩ := exists_puts hfilled hl.pairwise_apart shape.start
  rw [← hl.finish_congr t u ht] at hfinish
  cases hv with
  | emptyList hclose =>
    cases hputs
    simp [readRecord, Blanks.skip_cons hb (by decide), hl.fields_eq, positions,
      Blanks.mark_eq hclose (by decide), Except.map, bind, Except.bind, finished_eq_ok, hfinish]
  | list hvs =>
    simp [readRecord, Blanks.skip_cons hb (by decide), hl.fields_eq,
      positions_complete hvs hp hputs true rfl, bind, Except.bind, finished_eq_ok, hfinish]

theorem finished_members (hl : Layout shape slots) {text front rest : List Char}
    {ms : List (List Piece × Json)} {vs : List Json} {value : α} (hb : Blanks text front)
    (hv : Written (.value (.object ms)) front rest) (hk : ∀ m ∈ ms, (chars? m.1).isSome)
    (hp : ∀ m ∈ ms, Paired m.2)
    (hvs : (slots.map Slot.name).map (valuesUnder · ms) = vs.map ([·]))
    (hfilled : Filled slots vs u) (hfinish : shape.finish u = some value) :
    readRecord shape text = .ok (value, rest) := by
  have hgains : ∀ slot ∈ slots,
      slot.Gains (slot.get shape.start) (valuesUnder slot.name ms) (slot.get u) := by
    intro slot hs
    rw [hl.start_eq slot hs]
    exact hfilled.gains hvs slot hs
  obtain ⟨t, hsteps, ht⟩ := exists_steps hl hk hgains
  rw [← hl.finish_congr t u ht] at hfinish
  cases hv with
  | emptyObject hclose =>
    cases hsteps
    simp [readRecord, Blanks.skip_cons hb (by decide), members_close hclose, bind, Except.bind,
      finished_eq_ok, hfinish]
  | object hms =>
    simp [readRecord, Blanks.skip_cons hb (by decide), members_complete hl hms hp hsteps true rfl,
      bind, Except.bind, finished_eq_ok, hfinish]

/-- What follows a record does not matter: it ends with a bracket of its own. -/
theorem record_complete (hl : Layout shape slots) {text front rest : List Char} {v : Json}
    {value : α} (hb : Blanks text front) (hv : Written (.value v) front rest) (hp : Paired v)
    (h : SaysRecord shape slots v value) : readRecord shape text = .ok (value, rest) := by
  obtain ⟨vs, u, hholds, hfilled, hfinish⟩ := h
  cases hholds with
  | object hvs =>
    cases hp with
    | object hk hp => exact finished_members hl hb hv hk hp hvs hfilled hfinish
  | list =>
    cases hp with
    | list hp => exact finished_positions hl hb hv hp hfilled hfinish

theorem reads_record (hl : Layout shape slots) :
    Reads (record shape) (SaysRecord shape slots) where
  sound := by
    intro text rest value h
    change readRecord shape text = _ at h
    unfold readRecord at h
    split at h
    · rename_i more he
      obtain ⟨v, hv, hmean⟩ := positions_finished hl h
      exact ⟨_, v, blanks_of_skip_eq he, hv, hmean⟩
    · rename_i more he
      obtain ⟨v, hv, hmean⟩ := members_finished hl h
      exact ⟨_, v, blanks_of_skip_eq he, hv, hmean⟩
    · cases h
  complete := fun hb hv hp _ h => record_complete hl hb hv hp h

end Fields

end LetReturn.RecordReading
