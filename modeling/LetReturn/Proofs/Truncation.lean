import LetReturn.Proofs.ReportRoundTrip

set_option autoImplicit false

/-!
# Truncated reports

The first part of the text of a report is never taken for a report or for a wrong one: a reader that
reads the whole text reads the same from its front part, or says that the text ends too early
(`Follows`). Only a number may be read shorter, and then no text is left for what comes behind it.
-/
namespace LetReturn.Truncation
open JsonReading JsonStrings JsonNumbers JsonRecords ReportReading Reports
open JsonGrammar JsonScalars JsonValues TypedValues RecordReading ReportTexts ReportRoundTrip

/-- If the whole text is read, its part gives the same before the text grows, or ends too early. -/
def Follows {ρ : Type} (grow : ρ → ρ) (part whole : Outcome ρ) : Prop :=
  ∀ b, whole = .ok b → part = .error .truncated ∨ ∃ a, part = .ok a ∧ grow a = b

def behind {α : Type} (more : List Char) (front : α × List Char) : α × List Char :=
  (front.1, front.2 ++ more)

namespace Follows
variable {ρ τ : Type} {grow : ρ → ρ} {grow' : τ → τ} {part whole : Outcome ρ}

theorem early (whole : Outcome ρ) : Follows grow (.error .truncated) whole :=
  fun _ _ => .inl rfl

theorem fault (part : Outcome ρ) (f : Fault) : Follows grow part (.error f) := nofun

theorem ok (a : ρ) : Follows grow (.ok a) (.ok (grow a)) := by
  intro b h
  cases h
  exact .inr ⟨a, rfl, rfl⟩

theorem read {α : Type} {more : List Char} (value : α) (after : List Char) :
    Follows (behind more) (.ok (value, after)) (.ok (value, after ++ more)) :=
  .ok (value, after)

theorem bind (h : Follows grow part whole) {k : ρ → Outcome τ}
    (hk : ∀ a, part = .ok a → Follows grow' (k a) (k (grow a))) :
    Follows grow' (part >>= k) (whole >>= k) := by
  intro c hc
  obtain ⟨b, hb, hkb⟩ := bind_eq_ok.1 hc
  obtain rfl | ⟨a, rfl, rfl⟩ := h b hb
  · exact .inl rfl
  · exact hk a rfl c hkb

theorem andThen {α : Type} {more rest : List Char} {value : α} {part : Outcome (α × List Char)}
    (h : Follows (behind more) part (.ok (value, rest))) {k : α × List Char → Outcome τ}
    {whole : Outcome τ} (hk : ∀ after, after ++ more = rest → Follows grow' (k (value, after)) whole) :
    Follows grow' (part >>= k) whole := by
  obtain rfl | ⟨⟨front, after⟩, rfl, heq⟩ := h (value, rest) rfl
  · exact .early _
  · obtain ⟨rfl, hrest⟩ : front = value ∧ after ++ more = rest := Prod.mk.inj heq
    exact hk after hrest

theorem map (h : Follows grow part whole) {f : ρ → τ} (hf : ∀ a, grow' (f a) = f (grow a)) :
    Follows grow' (part.map f) (whole.map f) := by
  intro c hc
  obtain ⟨b, hb, rfl⟩ := map_eq_ok.1 hc
  obtain rfl | ⟨a, rfl, rfl⟩ := h b hb
  · exact .inl rfl
  · exact .inr ⟨f a, rfl, hf a⟩

end Follows

section Scalars
variable {more : List Char}

/-- Unless a part is blank, the same stands behind the blanks of it and of the whole. -/
theorem skipBlanks_append {cut after : List Char} {c : Char} (h : skipBlanks cut = c :: after)
    (more : List Char) : skipBlanks (cut ++ more) = c :: (after ++ more) := by
  unfold skipBlanks at h ⊢
  rw [List.dropWhile_append, h]
  rfl

theorem cut_cases {cut text : List Char} {c : Char} (h : Blanks (cut ++ more) (c :: text))
    (hc : ¬ Blank c) :
    skipBlanks cut = [] ∨ ∃ after, skipBlanks cut = c :: after ∧ after ++ more = text := by
  have hwhole := Blanks.skip_cons h hc
  cases hs : skipBlanks cut with
  | nil => exact .inl rfl
  | cons d after =>
    rw [skipBlanks_append hs] at hwhole
    cases hwhole
    exact .inr ⟨after, rfl, rfl⟩

theorem word_follows (letters cut more : List Char) :
    Follows (· ++ more) (word letters cut) (word letters (cut ++ more)) := by
  induction letters generalizing cut with
  | nil => exact .ok cut
  | cons letter letters ih =>
    cases cut with
    | nil => exact .early _
    | cons c cut =>
      rw [List.cons_append, word, word]
      split_ifs
      · exact ih cut
      · exact .fault _ _

theorem mark_follows (expected : Char) (cut more : List Char) :
    Follows (· ++ more) (mark expected cut) (mark expected (cut ++ more)) := by
  cases hs : skipBlanks cut with
  | nil =>
    simp only [mark, hs]
    exact .early _
  | cons c after =>
    simp only [mark, hs, skipBlanks_append hs]
    split_ifs
    · exact .ok after
    · exact .fault _ _

theorem exactly_follows (expected : Char) (cut more : List Char) :
    Follows (· ++ more) (exactly expected cut) (exactly expected (cut ++ more)) := by
  cases cut with
  | nil => exact .early _
  | cons c cut =>
    rw [List.cons_append, exactly, exactly]
    split_ifs
    · exact .ok cut
    · exact .fault _ _

theorem byteSize_hex {text : List Char} (h : ∀ c ∈ text, ∃ d, Hex c d) :
    byteSize text = text.length := by
  have hsize : ∀ c d, Hex c d → c.utf8Size = 1 := by
    rintro c d ⟨hd, rfl | rfl⟩
    · interval_cases d <;> rfl
    · interval_cases d <;> rfl
  unfold byteSize
  induction text with
  | nil => rfl
  | cons c text ih =>
    rw [List.forall_mem_cons] at h
    obtain ⟨⟨d, hd⟩, htext⟩ := h
    rw [String.ofList_cons, String.utf8ByteSize_append, ih htext, String.utf8ByteSize_singleton,
      hsize c d hd, List.length_cons, Nat.add_comm]

/-- Digits that are too few are the only text for which more could help. -/
theorem codeUnit_early {cut : List Char} (h : ∀ c ∈ cut, ∃ d, Hex c d) (hlen : cut.length < 4) :
    codeUnit cut = .error .truncated := by
  have hshort : codeUnit cut = .error (if byteSize cut < 4 then .truncated else .malformed) := by
    obtain _ | ⟨a, _ | ⟨b, _ | ⟨c, _ | ⟨d, rest⟩⟩⟩⟩ := cut
    · rfl
    · rfl
    · rfl
    · rfl
    · simp only [List.length_cons] at hlen
      omega
  rw [hshort, byteSize_hex h, if_pos hlen]

theorem codeUnit_follows (cut more : List Char) :
    Follows (behind more) (codeUnit cut) (codeUnit (cut ++ more)) := by
  rintro ⟨n, rest⟩ hwhole
  rw [codeUnit_eq_ok] at hwhole
  generalize hcut : cut ++ more = text at hwhole
  obtain @⟨a, b, c, d, i, j, k, l, _, ha, hb, hc, hd⟩ := hwhole
  by_cases hlen : cut.length < 4
  · refine .inl (codeUnit_early (fun x hx => ?_) hlen)
    have hfour : cut ++ more.take (4 - cut.length) = [a, b, c, d] := by
      have htake := congrArg (List.take 4) hcut
      rwa [List.take_append, List.take_of_length_le (Nat.le_of_lt hlen)] at htake
    have hmem := List.mem_append_left (more.take (4 - cut.length)) hx
    simp only [hfour, List.mem_cons, List.not_mem_nil, or_false] at hmem
    obtain rfl | rfl | rfl | rfl := hmem
    · exact ⟨i, ha⟩
    · exact ⟨j, hb⟩
    · exact ⟨k, hc⟩
    · exact ⟨l, hd⟩
  · obtain _ | ⟨a', _ | ⟨b', _ | ⟨c', _ | ⟨d', after⟩⟩⟩⟩ := cut
    · exact absurd (by simp) hlen
    · exact absurd (by simp) hlen
    · exact absurd (by simp) hlen
    · exact absurd (by simp) hlen
    · simp only [List.cons_append, List.cons.injEq] at hcut
      obtain ⟨rfl, rfl, rfl, rfl, rfl⟩ := hcut
      exact .inr ⟨(_, after), (codeUnit_eq_ok _).2 (.mk ha hb hc hd), rfl⟩

theorem numbered_follows (cut more : List Char) :
    Follows (behind more) (numbered cut) (numbered (cut ++ more)) := by
  unfold numbered
  refine (codeUnit_follows cut more).bind fun ⟨unit, after⟩ _ => ?_
  by_cases hlow : isLowSurrogate unit = true
  · simp only [behind, hlow, ↓reduceIte]
    exact .fault _ _
  by_cases hhigh : isHighSurrogate unit = true
  · simp only [behind, hlow, hhigh, ↓reduceIte]
    refine (exactly_follows '\\' after more).bind fun after _ => ?_
    refine (exactly_follows 'u' after more).bind fun after _ => ?_
    refine (codeUnit_follows after more).bind fun ⟨low, after⟩ _ => ?_
    by_cases hpair : isLowSurrogate low = true
    · simp only [behind, hpair, ↓reduceIte]
      exact .read (ofPair unit low) after
    · simp only [behind, hpair]
      exact .fault _ _
  · simp only [behind, hlow, hhigh]
    exact .read (Char.ofNat unit) after

theorem escape_follows (cut more : List Char) :
    Follows (behind more) (escape cut) (escape (cut ++ more)) := by
  cases cut with
  | nil => exact .early _
  | cons c cut =>
    rw [List.cons_append, escape, escape]
    cases lettered? c with
    | some value => exact .read value cut
    | none =>
      simp only
      split_ifs
      · exact numbered_follows cut more
      · exact .fault _ _

theorem stringTail_follows (cut more : List Char) :
    Follows (behind more) (stringTail cut) (stringTail (cut ++ more)) := by
  obtain _ | ⟨c, after⟩ := cut
  · rw [stringTail]
    exact .early _
  have hstep : ∀ (c : Char) (rest : List Char), rest.length < (c :: after).length →
      Follows (behind more) ((stringTail rest).map fun tail => (c :: tail.1, tail.2))
        ((stringTail (rest ++ more)).map fun tail => (c :: tail.1, tail.2)) := by
    intro c rest hlt
    exact (stringTail_follows rest more).map fun _ => rfl
  rw [List.cons_append]
  by_cases hquote : c = '"'
  · rw [hquote, stringTail, stringTail]
    exact .read [] after
  by_cases hslash : c = '\\'
  · rw [hslash, stringTail_backslash, stringTail_backslash]
    refine (escape_follows after more).bind fun escaped he => ?_
    exact hstep escaped.1 escaped.2 (Nat.lt_succ_of_lt (escape_shorter he))
  · rw [stringTail.eq_4 _ _ hquote hslash, stringTail.eq_4 _ _ hquote hslash]
    split_ifs
    · exact .fault _ _
    · exact hstep c after (Nat.lt_succ_self _)
termination_by cut.length
decreasing_by exact hlt

end Scalars

section Values
variable {α : Type} {reader : Reader α} {v : Json} {value : α}

/-- However a text with the value in front is cut, the reader notices it, or it reads up to the end
of what is there. -/
def Notices (reader : Reader α) (v : Json) (value : α) : Prop :=
  ∀ ⦃cut more front rest : List Char⦄, Blanks (cut ++ more) front → Written (.value v) front rest →
    Bounded rest → Follows (behind more) (reader.read cut) (.ok (value, rest)) ∨
      ∃ other, reader.read cut = .ok (other, [])

theorem notices_of_follows {Says : Json → α → Prop} (hreads : Reads reader Says) (hp : Paired v)
    (hs : Says v value) (h : ∀ cut more : List Char,
      Follows (behind more) (reader.read cut) (reader.read (cut ++ more))) :
    Notices reader v value := by
  intro cut more front rest hb hv hr
  have hfollows := h cut more
  rw [hreads.complete hb hv hp hr hs] at hfollows
  exact .inl hfollows

theorem flag_follows (cut more : List Char) :
    Follows (behind more) (readFlag cut) (readFlag (cut ++ more)) := by
  cases hs : skipBlanks cut with
  | nil =>
    simp only [readFlag, hs]
    exact .early _
  | cons c after =>
    simp only [readFlag, hs, skipBlanks_append hs]
    by_cases ht : c = 't'
    · rw [ht]
      exact (word_follows _ after more).map fun _ => rfl
    by_cases hf : c = 'f'
    · rw [hf]
      exact (word_follows _ after more).map fun _ => rfl
    · intro b hb
      split at hb
      · rename_i he
        exact absurd (List.cons.inj he).1 ht
      · rename_i he
        exact absurd (List.cons.inj he).1 hf
      · cases hb

theorem notices_flag (b : Bool) : Notices flag (.flag b) b :=
  notices_of_follows reads_flag (.flag b) rfl flag_follows

theorem text_follows (cut more : List Char) :
    Follows (behind more) (readText cut) (readText (cut ++ more)) := by
  cases hs : skipBlanks cut with
  | nil =>
    simp only [readText, hs]
    exact .early _
  | cons c after =>
    simp only [readText, hs, skipBlanks_append hs]
    by_cases hq : c = '"'
    · rw [hq]
      exact (stringTail_follows after more).map fun _ => rfl
    · intro b hb
      split at hb
      · rename_i he
        exact absurd (List.cons.inj he).1 hq
      · cases hb

theorem notices_text {ps : List Piece} {text : String} (h : chars? ps = some text.toList) :
    Notices string (.string ps) text :=
  notices_of_follows reads_string (.string (by simp [h])) ⟨ps, rfl, h⟩ text_follows

theorem ofDigitChars_le_append (ds more : List Char) :
    Nat.ofDigitChars 10 ds 0 ≤ Nat.ofDigitChars 10 (ds ++ more) 0 := by
  rw [Nat.ofDigitChars_append, Nat.ofDigitChars_eq_ofDigitChars_zero (l := more)]
  exact Nat.le_add_right_of_le (Nat.le_mul_of_pos_left _ (Nat.pow_pos (by decide)))

theorem whole_of_written {ds front rest : List Char}
    (h : Written (.value (.number ⟨false, ds, none, none⟩)) front rest) : Whole ds front rest := by
  cases h with
  | number hnumber =>
    cases hnumber with
    | mk hm hw hf he =>
      cases hm
      cases hf
      cases he
      exact hw

theorem Whole.front {ds left text rest : List Char} (h : Whole (ds ++ left) text rest)
    (hne : ds ≠ []) : Whole ds ds [] := by
  obtain ⟨⟨-, hd, -⟩, hzero⟩ := h
  refine ⟨⟨hne, fun c hc => hd c (List.mem_append_left left hc), (List.append_nil ds).symm⟩,
    fun hhead => ?_⟩
  have hlone := hzero (by rw [List.head?_append, hhead]; rfl)
  obtain ⟨c, more, rfl⟩ := List.exists_cons_of_ne_nil hne
  rw [List.cons_append, List.cons.injEq, List.append_eq_nil_iff] at hlone
  rw [hlone.1, hlone.2.1]

theorem readCount_eq {ds cut rest : List Char} (h : Whole ds (skipBlanks cut) rest)
    (hr : Bounded rest) (hlt : Nat.ofDigitChars 10 ds 0 < 2 ^ 64) :
    readCount cut = .ok (Nat.ofDigitChars 10 ds 0, rest) :=
  reads_count.complete (blanks_skipBlanks cut) (.number (.mk .absent h .absent .absent))
    (.number _) hr ⟨ds, rfl, rfl, hlt⟩

/-- Where the digits of a count are cut, those that are left are read as a count. -/
theorem notices_count {ds : List Char} (hlt : Nat.ofDigitChars 10 ds 0 < 2 ^ 64) :
    Notices count (.number ⟨false, ds, none, none⟩) (Nat.ofDigitChars 10 ds 0) := by
  intro cut more front rest hb hv hr
  change Follows (behind more) (readCount cut) _ ∨ ∃ other, readCount cut = _
  cases hs : skipBlanks cut with
  | nil =>
    simp only [readCount, hs]
    exact .inl (.early _)
  | cons c after =>
    have hskip : skipBlanks (cut ++ more) = front := by
      rw [Blanks.skip_eq hb, Written.skipBlanks_eq hv]
    have hwhole := whole_of_written hv
    obtain rfl := hwhole.1.2.2
    rw [skipBlanks_append hs, ← List.cons_append, List.append_eq_append_iff] at hskip
    obtain ⟨left, rfl, -⟩ | ⟨left, hds, rfl⟩ := hskip
    · have hfront : Whole (c :: after) (skipBlanks cut) [] := by
        rw [hs]
        exact Whole.front hwhole (List.cons_ne_nil c after)
      have hfits := Nat.lt_of_le_of_lt (ofDigitChars_le_append (c :: after) left) hlt
      exact .inr ⟨_, readCount_eq hfront (by simp [Bounded]) hfits⟩
    · have hfront : Whole ds (skipBlanks cut) left := by
        rw [hs, hds]
        exact ⟨⟨hwhole.1.1, hwhole.1.2.1, rfl⟩, hwhole.2⟩
      have hbounded : Bounded left := fun d hd => hr d (List.mem_head?_append_of_mem_head? hd)
      rw [readCount_eq hfront hbounded hlt]
      exact .inl (.read _ left)

theorem nextElement_follows (first : Bool) (cut more : List Char) :
    Follows (behind more) (nextElement first cut) (nextElement first (cut ++ more)) := by
  cases hs : skipBlanks cut with
  | nil =>
    simp only [nextElement, hs]
    exact .early _
  | cons c after =>
    simp only [nextElement, hs, skipBlanks_append hs]
    split_ifs
    · exact .read false after
    · exact .read true (c :: after)
    · cases hd : skipBlanks after with
      | nil => exact .early _
      | cons d later =>
        simp only [skipBlanks_append hd]
        split_ifs
        · exact .fault _ _
        · exact .read true (d :: later)
    · exact .fault _ _

theorem nextMember_follows (first : Bool) (cut more : List Char) :
    Follows (behind more) (nextMember first cut) (nextMember first (cut ++ more)) := by
  cases hs : skipBlanks cut with
  | nil =>
    simp only [nextMember, hs]
    exact .early _
  | cons c after =>
    simp only [nextMember, hs, skipBlanks_append hs]
    split_ifs
    · exact .read false after
    · exact .read true after
    · exact .fault _ _
    · exact (mark_follows '"' after more).map fun _ => rfl
    · exact .fault _ _

end Values

section Lists
variable {α : Type} {item : Reader α} {cut more text rest : List Char}

theorem elements_nil (first : Bool) : elements item first [] = .error .truncated := by
  rw [elements_eq]
  rfl

theorem elements_end (first : Bool) (h : Blanks (cut ++ more) (']' :: rest)) :
    Follows (behind more) (elements item first cut) (.ok ([], rest)) := by
  have hnext := nextElement_follows first cut more
  rw [show nextElement first (cut ++ more) = .ok (false, rest) by
    simp [nextElement, Blanks.skip_cons h (by decide)]] at hnext
  rw [elements_eq]
  refine hnext.andThen ?_
  rintro after rfl
  exact .read [] after

theorem elements_follows {vs : List Json} {values : List α}
    (hitems : List.Forall₂ (Notices item) vs values)
    (h : Written (.elements vs) text (']' :: rest)) (first : Bool)
    (hlead : Lead first (cut ++ more) text) :
    Follows (behind more) (elements item first cut) (.ok (values, rest)) := by
  induction hitems generalizing text first cut with
  | nil => cases h
  | @cons v value vs values hv _ ih =>
    -- The first element, given what its rest is read as.
    have hread : ∀ {front middle tail : List Char}, Blanks text front →
        Written (.value v) front middle → Blanks middle tail → Bounded tail →
        (∀ after, after ++ more = middle →
          Follows (behind more) (elements item false after) (.ok (values, rest))) →
        Follows (behind more) (elements item first cut) (.ok (value :: values, rest)) := by
      intro front middle tail hf hw hb hr hrest
      obtain ⟨c, later, -, hc, hfront⟩ := Written.head hw
      have hnext := nextElement_follows first cut more
      rw [Lead.nextElement_eq hlead (hfront v rfl ▸ hf) hc, ← hfront v rfl] at hnext
      rw [elements_eq]
      refine hnext.andThen ?_
      rintro after rfl
      simp only [↓reduceIte]
      obtain hitem | ⟨other, hshort⟩ := hv .none hw (Blanks.bounded hb hr)
      · exact hitem.andThen fun left hleft => (hrest left hleft).map fun _ => rfl
      · rw [hshort]
        simp only [bind, Except.bind, elements_nil]
        exact .early _
    cases h with
    | lastElement h =>
      cases h with
      | element hf hw hb =>
        cases ‹List.Forall₂ (Notices item) [] values›
        refine hread hf hw hb (bounded_cons (by decide) rest) fun after hafter => ?_
        exact elements_end false (hafter ▸ hb)
    | moreElements h htail =>
      cases h with
      | element hf hw hb =>
        refine hread hf hw hb (bounded_cons (by decide) _) fun after hafter => ?_
        exact ih htail false (hafter ▸ hb)

theorem notices_list {vs : List Json} {values : List α}
    (hitems : List.Forall₂ (Notices item) vs values) : Notices (list item) (.list vs) values := by
  intro cut more front rest hb hv _
  change Follows (behind more) (readList item cut) _ ∨ ∃ other, readList item cut = _
  have hinside : ∀ {text : List Char}, front = '[' :: text →
      (∀ after, after ++ more = text →
        Follows (behind more) (elements item true after) (.ok (values, rest))) →
      Follows (behind more) (readList item cut) (.ok (values, rest)) := by
    rintro text rfl hrest
    obtain hs | ⟨after, hs, hafter⟩ := cut_cases hb (by decide)
    · simp only [readList, hs]
      exact .early _
    · simp only [readList, hs]
      exact hrest after hafter
  cases hv with
  | emptyList hclose =>
    cases hitems
    exact .inl (hinside rfl fun after hafter => elements_end true (hafter ▸ hclose))
  | list hvs =>
    exact .inl (hinside rfl fun after hafter => elements_follows hitems hvs true hafter)

end Lists

section Records
variable {σ α : Type} {shape : Shape σ α} {slots : List (Slot σ)} {s u : σ}
variable {cut more text rest : List Char}

/-- Members that fill one slot after another, each with a value that its reader notices. -/
inductive Fills (slots : List (Slot σ)) : σ → List (List Piece × Json) → σ → Prop where
  | done {s : σ} : Fills slots s [] s
  | more {slot : Slot σ} {s u : σ} {k : List Piece} {v : Json} {value : slot.Value}
      {ms : List (List Piece × Json)} (hs : slot ∈ slots) (hk : chars? k = some slot.name.toList)
      (he : slot.get s = none) (hv : Notices slot.reader v value)
      (tail : Fills slots (slot.put value s) ms u) : Fills slots s ((k, v) :: ms) u

theorem members_nil (s : σ) (first : Bool) : members shape s first [] = .error .truncated := by
  rw [members_eq]
  rfl

theorem members_end (s : σ) (first : Bool) (h : Blanks (cut ++ more) ('}' :: rest)) :
    Follows (behind more) (members shape s first cut) (.ok (s, rest)) := by
  have hnext := nextMember_follows first cut more
  rw [show nextMember first (cut ++ more) = .ok (false, rest) by
    simp [nextMember, Blanks.skip_cons h (by decide)]] at hnext
  rw [members_eq]
  refine hnext.andThen ?_
  rintro after rfl
  exact .read s after

theorem member_follows (hl : Layout shape slots) {slot : Slot σ} (hs : slot ∈ slots)
    (he : slot.get s = none) {v : Json} {value : slot.Value} (hv : Notices slot.reader v value)
    {after front : List Char} (hc : Blanks (cut ++ more) (':' :: after)) (hb : Blanks after front)
    (hw : Written (.value v) front rest) (hr : Bounded rest) :
    Follows (behind more) (member shape s slot.name cut) (.ok (slot.put value s, rest)) ∨
      ∃ other, member shape s slot.name cut = .ok (other, []) := by
  have hmember : member shape s slot.name cut =
      mark ':' cut >>= fun after => (slot.reader.read after).map fun front =>
        (slot.put front.1 s, front.2) := by
    obtain ⟨slot', hs', hn, hf⟩ | ⟨hnone, -⟩ := hl.find?_cases slot.name
    · obtain rfl := hl.eq_of_name hs' hs hn
      have hfilled : slot'.field.filled s = false := by simp [Slot.field, he]
      simp only [member, hf, hfilled, Bool.false_eq_true, ↓reduceIte]
      rfl
    · exact absurd rfl (hnone slot hs)
  have hmark := mark_follows ':' cut more
  rw [Blanks.mark_eq hc (by decide)] at hmark
  rw [hmember]
  obtain hm | ⟨left, hm, rfl⟩ := hmark after rfl
  · rw [hm]
    exact .inl (.early _)
  rw [hm]
  obtain hvalue | ⟨other, hshort⟩ := hv hb hw hr
  · exact .inl (hvalue.map fun _ => rfl)
  · refine .inr ⟨slot.put other s, ?_⟩
    simp [bind, Except.bind, hshort, Except.map]

theorem members_follows (hl : Layout shape slots) {ms : List (List Piece × Json)}
    (hfills : Fills slots s ms u) (h : Written (.members ms) text ('}' :: rest)) (first : Bool)
    (hlead : Lead first (cut ++ more) text) :
    Follows (behind more) (members shape s first cut) (.ok (u, rest)) := by
  induction hfills generalizing text first cut with
  | done => cases h
  | @more slot s u k v value ms hs hk he hv _ ih =>
    have hread : ∀ {inside middle after front later tail : List Char},
        Blanks text ('"' :: inside) → Pieces k inside middle → Blanks middle (':' :: after) →
        Blanks after front → Written (.value v) front later → Blanks later tail → Bounded tail →
        (∀ left, left ++ more = later →
          Follows (behind more) (members shape (slot.put value s) false left) (.ok (u, rest))) →
        Follows (behind more) (members shape s first cut) (.ok (u, rest)) := by
      intro inside middle after front later tail hf hpieces hcolon hb hw hclose hr hrest
      have hnext := nextMember_follows first cut more
      rw [Lead.nextMember_eq hlead hf] at hnext
      rw [members_eq]
      refine hnext.andThen ?_
      rintro key rfl
      simp only [↓reduceIte]
      have hkey := stringTail_follows key more
      rw [Pieces.stringTail_eq hpieces hk] at hkey
      refine hkey.andThen ?_
      rintro colon rfl
      simp only [String.ofList_toList]
      obtain hmember | ⟨other, hshort⟩ :=
        member_follows hl hs he hv hcolon hb hw (Blanks.bounded hclose hr)
      · exact hmember.andThen hrest
      · rw [hshort]
        simp only [bind, Except.bind, members_nil]
        exact .early _
    cases h with
    | lastMember h =>
      cases h with
      | member hf hpieces hcolon h =>
        cases h with
        | element hb hw hclose =>
          cases ‹Fills slots _ [] u›
          refine hread hf hpieces hcolon hb hw hclose (bounded_cons (by decide) rest)
            fun left hleft => ?_
          exact members_end _ false (hleft ▸ hclose)
    | moreMembers h htail =>
      cases h with
      | member hf hpieces hcolon h =>
        cases h with
        | element hb hw hcomma =>
          refine hread hf hpieces hcolon hb hw hcomma (bounded_cons (by decide) _)
            fun left hleft => ?_
          exact ih htail false (hleft ▸ hcomma)

/-- A record is read from a part of its text only where the whole record is there. -/
theorem record_follows (hl : Layout shape slots) {ms : List (List Piece × Json)} {value : α}
    (hfills : Fills slots shape.start ms u) (hfinish : shape.finish u = some value)
    {front : List Char} (hb : Blanks (cut ++ more) front)
    (hv : Written (.value (.object ms)) front rest) :
    Follows (behind more) (readRecord shape cut) (.ok (value, rest)) := by
  have hinside : ∀ {text : List Char}, front = '{' :: text →
      (∀ after, after ++ more = text →
        Follows (behind more) (members shape shape.start true after) (.ok (u, rest))) →
      Follows (behind more) (readRecord shape cut) (.ok (value, rest)) := by
    rintro text rfl hrest
    obtain hs | ⟨after, hs, hafter⟩ := cut_cases hb (by decide)
    · simp only [readRecord, hs]
      exact .early _
    · simp only [readRecord, hs]
      refine (hrest after hafter).andThen ?_
      rintro left rfl
      rw [finished_eq_ok.2 ⟨hfinish, rfl⟩]
      exact .read value left
  cases hv with
  | emptyObject hclose =>
    cases hfills
    exact hinside rfl fun after hafter => members_end _ true (hafter ▸ hclose)
  | object hms =>
    exact hinside rfl fun after hafter => members_follows hl hfills hms true hafter

end Records

section Reports
variable {r : Report}

theorem notices_toDigits {n : ℕ} (h : n < wordLimit) : Notices count (countValue n) n := by
  have hcount := notices_count (by rwa [Nat.ofDigitChars_ten_toDigits])
  rwa [Nat.ofDigitChars_ten_toDigits] at hcount

theorem notices_note {n : Note} (h : n.Fits) : Notices (record noteShape) (noteValue n) n := by
  intro cut more front rest hb hv _
  have hfills : Fills noteSlots noteShape.start _ ⟨some n.message, some n.start, some n.stop⟩ :=
    .more List.mem_cons_self (chars?_spell "message") rfl (notices_text (chars?_spell n.message)) <|
    .more (List.mem_cons_of_mem _ List.mem_cons_self) (chars?_spell "start") rfl
      (notices_toDigits h.1) <|
    .more (List.mem_cons_of_mem _ (List.mem_cons_of_mem _ List.mem_cons_self)) (chars?_spell "end")
      rfl (notices_toDigits h.2) .done
  exact .inl (record_follows noteLayout hfills rfl hb hv)

theorem report_follows (h : r.Fits) {cut more : List Char} {rest : List Char}
    (hw : Written (.value (reportValue r)) (cut ++ more) rest) :
    Follows (behind more) (readRecord reportShape cut) (.ok (r, rest)) := by
  have hnotes : List.Forall₂ (Notices (record noteShape)) (r.notes.map noteValue) r.notes := by
    rw [List.forall₂_map_left_iff, List.forall₂_same]
    exact fun n hn => notices_note (h.2 n hn)
  have hfills : Fills reportSlots reportShape.start _
      ⟨some r.success, some r.sourceFile, some r.statementCount, some r.notes⟩ :=
    .more List.mem_cons_self (chars?_spell "success") rfl (notices_flag r.success) <|
    .more (List.mem_cons_of_mem _ List.mem_cons_self) (chars?_spell "source_file") rfl
      (notices_text (chars?_spell r.sourceFile)) <|
    .more (List.mem_cons_of_mem _ (List.mem_cons_of_mem _ List.mem_cons_self))
      (chars?_spell "statement_count") rfl (notices_toDigits h.1) <|
    .more (List.mem_cons_of_mem _ (List.mem_cons_of_mem _ (List.mem_cons_of_mem _
      List.mem_cons_self))) (chars?_spell "diagnostics") rfl (notices_list hnotes) .done
  exact record_follows reportLayout hfills rfl .none hw

theorem ofJson_cut (h : r.Fits) {cut more : String} (htext : JsonText.ofReport r = cut ++ more)
    (hne : more ≠ "") : ofJson cut = .error .truncated := by
  have hw := written_report r []
  rw [List.append_nil, htext, String.toList_append] at hw
  unfold ofJson whole
  obtain hearly | ⟨⟨value, after⟩, -, heq⟩ := report_follows h hw (r, []) rfl
  · change readRecord reportShape cut.toList >>= _ = _
    rw [hearly]
    rfl
  · obtain ⟨-, hrest⟩ := Prod.mk.inj heq
    exact absurd (String.toList_eq_nil_iff.1 (List.append_eq_nil_iff.1 hrest).2) hne

theorem ofJson_overlong (h : r.Fits) {more : String} (hm : ∃ c ∈ more.toList, ¬ Blank c) :
    ofJson (JsonText.ofReport r ++ more) = .error .malformed := by
  have hread : (record reportShape).read (JsonText.ofReport r ++ more).toList =
      .ok (r, more.toList) := by
    rw [String.toList_append]
    exact record_complete reportLayout .none (written_report r more.toList) (paired_report r)
      ((saysRecord_report _ r).2 (isReport_reportValue h))
  have hskip : skipBlanks more.toList ≠ [] := by
    obtain ⟨c, hc, hblank⟩ := hm
    intro hnil
    exact hblank ((isBlank_iff_blank c).1 (List.dropWhile_eq_nil_iff.1 hnil c hc))
  unfold ofJson whole
  rw [hread]
  simp [bind, Except.bind, hskip]

end Reports

/-- Each proper part of the text of a report, from its start on, is refused because it ends too
early. Only blanks may stand behind the text: with anything else it is malformed. -/
theorem ofReport_cut_or_overlong (r : Report) (h : r.Fits) :
    (∀ cut more : String, JsonText.ofReport r = cut ++ more → more ≠ "" →
      ofJson cut = .error .truncated) ∧
    (∀ gap : String, (∀ c ∈ gap.toList, Blank c) → ofJson (JsonText.ofReport r ++ gap) = .ok r) ∧
    ∀ more : String, (∃ c ∈ more.toList, ¬ Blank c) →
      ofJson (JsonText.ofReport r ++ more) = .error .malformed := by
  refine ⟨fun cut more => ofJson_cut h, fun gap hg => ?_, fun more => ofJson_overlong h⟩
  refine ofJson_ofReport_append h gap (List.all_eq_true.2 fun c hc => ?_)
  exact (isBlank_iff_blank c).2 (hg c hc)

def brief : Report := ⟨true, "\x1f", 42, []⟩

theorem ofReport_cut_or_overlong_brief :
    brief.Fits ∧ ofJson "" = .error .truncated ∧
      ofJson "\x7b\n  \"success\": true,\n  \"source_file\": \"\\u00" = .error .truncated ∧
      ofJson ("\x7b\n  \"success\": true,\n  \"source_file\": \"\\u001f\",\n" ++
        "  \"statement_count\": 4") = .error .truncated ∧
      ofJson (JsonText.ofReport brief ++ "\r\n") = .ok brief ∧
      ofJson (JsonText.ofReport brief ++ "\n\x7d") = .error .malformed := by
  have hfits : brief.Fits := ⟨by decide, by simp [brief]⟩
  obtain ⟨hcut, hblank, hoverlong⟩ := ofReport_cut_or_overlong brief hfits
  have htext : JsonText.ofReport brief =
      "\x7b\n  \"success\": true,\n  \"source_file\": \"\\u001f\",\n" ++
        "  \"statement_count\": 42,\n  \"diagnostics\": []\n\x7d" := by decide +kernel
  refine ⟨hfits, hcut "" _ String.empty_append.symm (by rw [htext]; decide +kernel),
    hcut _ "1f\",\n  \"statement_count\": 42,\n  \"diagnostics\": []\n\x7d" ?_ (by decide +kernel),
    hcut _ "2,\n  \"diagnostics\": []\n\x7d" ?_ (by decide +kernel),
    hblank _ (by simp [Blank]), hoverlong _ ⟨'\x7d', by simp, by decide⟩⟩
  · rw [htext]
    decide +kernel
  · rw [htext]
    decide +kernel

end LetReturn.Truncation
