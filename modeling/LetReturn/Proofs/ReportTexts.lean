import LetReturn.Proofs.JsonUniqueness
import LetReturn.Proofs.RecordReading

set_option autoImplicit false

namespace LetReturn.ReportTexts
open JsonReading JsonRecords ReportReading Reports
open JsonGrammar JsonScalars JsonValues JsonUniqueness TypedValues RecordReading

def noteKeys : List String := ["message", "start", "end"]

def reportKeys : List String := ["success", "source_file", "statement_count", "diagnostics"]

def IsNote (v : Json) (n : Note) : Prop :=
  ∃ message start stop, Holds noteKeys v [message, start, stop] ∧
    IsText message n.message ∧ IsCount start n.start ∧ IsCount stop n.stop

def IsReport (v : Json) (r : Report) : Prop :=
  ∃ success file total notes, Holds reportKeys v [success, file, total, notes] ∧
    IsFlag success r.success ∧ IsText file r.sourceFile ∧ IsCount total r.statementCount ∧
      IsList IsNote notes r.notes

def noteSlots : List (Slot NoteFields) :=
  [⟨"message", String, NoteFields.message, fun v n => { n with message := some v }, string, IsText,
      reads_string, fun _ _ => rfl⟩,
    ⟨"start", ℕ, NoteFields.start, fun v n => { n with start := some v }, count, IsCount,
      reads_count, fun _ _ => rfl⟩,
    ⟨"end", ℕ, NoteFields.stop, fun v n => { n with stop := some v }, count, IsCount,
      reads_count, fun _ _ => rfl⟩]

theorem noteLayout : Layout noteShape noteSlots where
  fields_eq := rfl
  nodup := by decide
  apart := by simp [noteSlots]
  start_eq := by simp [noteSlots, noteShape]
  finish_congr := by
    rintro ⟨message, start, stop⟩ ⟨message', start', stop'⟩ h
    simp only [noteSlots, List.forall_mem_cons] at h
    obtain ⟨rfl, rfl, rfl, -⟩ := h
    rfl
  finish_none := by
    rintro ⟨message, start, stop⟩ slot hs hnone
    simp only [noteSlots, List.mem_cons, List.not_mem_nil, or_false] at hs
    rcases hs with rfl | rfl | rfl
    · cases hnone
      rfl
    · cases hnone
      cases message <;> rfl
    · cases hnone
      cases message <;> cases start <;> rfl

theorem saysRecord_note (v : Json) (n : Note) :
    SaysRecord noteShape noteSlots v n ↔ IsNote v n := by
  constructor
  · rintro ⟨_, ⟨message, start, stop⟩, hholds, hfilled, hfinish⟩
    rcases hfilled with _ | ⟨⟨_, hm, hgetm⟩, _ | ⟨⟨_, ha, hgeta⟩, _ | ⟨⟨_, hb, hgetb⟩, _ | _⟩⟩⟩
    obtain rfl : message = some _ := hgetm
    obtain rfl : start = some _ := hgeta
    obtain rfl : stop = some _ := hgetb
    cases hfinish
    exact ⟨_, _, _, hholds, hm, ha, hb⟩
  · rintro ⟨message, start, stop, hholds, hm, ha, hb⟩
    exact ⟨[message, start, stop], ⟨some n.message, some n.start, some n.stop⟩, hholds,
      .cons ⟨_, hm, rfl⟩ (.cons ⟨_, ha, rfl⟩ (.cons ⟨_, hb, rfl⟩ .nil)), rfl⟩

theorem reads_note : Reads (record noteShape) IsNote := by
  have hreads := reads_record noteLayout
  rwa [funext fun v => funext fun n => propext (saysRecord_note v n)] at hreads

def reportSlots : List (Slot ReportFields) :=
  [⟨"success", Bool, ReportFields.success, fun v r => { r with success := some v }, flag, IsFlag,
      reads_flag, fun _ _ => rfl⟩,
    ⟨"source_file", String, ReportFields.sourceFile, fun v r => { r with sourceFile := some v },
      string, IsText, reads_string, fun _ _ => rfl⟩,
    ⟨"statement_count", ℕ, ReportFields.statementCount,
      fun v r => { r with statementCount := some v }, count, IsCount, reads_count, fun _ _ => rfl⟩,
    ⟨"diagnostics", List Note, ReportFields.notes, fun v r => { r with notes := some v },
      list (record noteShape), IsList IsNote, reads_list reads_note, fun _ _ => rfl⟩]

theorem reportLayout : Layout reportShape reportSlots where
  fields_eq := rfl
  nodup := by decide
  apart := by simp [reportSlots]
  start_eq := by simp [reportSlots, reportShape]
  finish_congr := by
    rintro ⟨success, file, total, notes⟩ ⟨success', file', total', notes'⟩ h
    simp only [reportSlots, List.forall_mem_cons] at h
    obtain ⟨rfl, rfl, rfl, rfl, -⟩ := h
    rfl
  finish_none := by
    rintro ⟨success, file, total, notes⟩ slot hs hnone
    simp only [reportSlots, List.mem_cons, List.not_mem_nil, or_false] at hs
    rcases hs with rfl | rfl | rfl | rfl
    · cases hnone
      rfl
    · cases hnone
      cases success <;> rfl
    · cases hnone
      cases success <;> cases file <;> rfl
    · cases hnone
      cases success <;> cases file <;> cases total <;> rfl

theorem saysRecord_report (v : Json) (r : Report) :
    SaysRecord reportShape reportSlots v r ↔ IsReport v r := by
  constructor
  · rintro ⟨_, ⟨success, file, total, notes⟩, hholds, hfilled, hfinish⟩
    rcases hfilled with _ | ⟨⟨_, hs, hgets⟩, _ | ⟨⟨_, hf, hgetf⟩, _ | ⟨⟨_, ht, hgett⟩,
      _ | ⟨⟨_, hn, hgetn⟩, _ | _⟩⟩⟩⟩
    obtain rfl : success = some _ := hgets
    obtain rfl : file = some _ := hgetf
    obtain rfl : total = some _ := hgett
    obtain rfl : notes = some _ := hgetn
    cases hfinish
    exact ⟨_, _, _, _, hholds, hs, hf, ht, hn⟩
  · rintro ⟨success, file, total, notes, hholds, hs, hf, ht, hn⟩
    exact ⟨[success, file, total, notes],
      ⟨some r.success, some r.sourceFile, some r.statementCount, some r.notes⟩, hholds,
      .cons ⟨_, hs, rfl⟩ (.cons ⟨_, hf, rfl⟩ (.cons ⟨_, ht, rfl⟩ (.cons ⟨_, hn, rfl⟩ .nil))), rfl⟩

theorem reads_report : Reads (record reportShape) IsReport := by
  have hreads := reads_record reportLayout
  rwa [funext fun v => funext fun r => propext (saysRecord_report v r)] at hreads

theorem whole_sound {α : Type} {reader : Reader α} {Says : Json → α → Prop}
    (h : Reads reader Says) {text : List Char} {value : α} (hw : whole reader text = .ok value) :
    ∃ v, Written (.element v) text [] ∧ Says v value := by
  unfold whole at hw
  obtain ⟨⟨a, rest⟩, hread, hend⟩ := bind_eq_ok.1 hw
  simp only at hend
  split_ifs at hend with hempty
  cases hend
  obtain ⟨front, v, hb, hv, hmean⟩ := h.sound hread
  rw [List.isEmpty_iff] at hempty
  exact ⟨v, .element hb hv (blanks_of_skip_eq hempty), hmean⟩

theorem whole_complete {α : Type} {reader : Reader α} {Says : Json → α → Prop}
    (h : Reads reader Says) {text : List Char} {v : Json} {value : α}
    (hw : Written (.element v) text []) (hp : Paired v) (hs : Says v value) :
    whole reader text = .ok value := by
  cases hw with
  | element hf hv hb =>
    have hread := h.complete hf hv hp (Blanks.bounded hb (by simp [Bounded])) hs
    have hend : skipBlanks _ = [] := Blanks.skip_eq hb
    simp only [whole, hread, bind, Except.bind, hend, List.isEmpty_nil, ↓reduceIte]

/-- Of an object only the members with a key of a report count, whatever else is in it. -/
theorem isReport_object_congr {ms ms' : List (List Piece × Json)}
    (h : ∀ key ∈ reportKeys, valuesUnder key ms = valuesUnder key ms') (r : Report) :
    IsReport (.object ms) r ↔ IsReport (.object ms') r := by
  have hmap : reportKeys.map (valuesUnder · ms) = reportKeys.map (valuesUnder · ms') :=
    List.map_congr_left h
  have hholds : ∀ vs, Holds reportKeys (.object ms) vs ↔ Holds reportKeys (.object ms') vs := by
    intro vs
    constructor
    · rintro ⟨hvs⟩
      exact .object (hmap ▸ hvs)
    · rintro ⟨hvs⟩
      exact .object (hmap ▸ hvs)
  simp only [IsReport, hholds]

/-- A text is read as a report exactly if it is written from a value that holds one. The order of
the members, blanks and members with other keys do not matter. -/
theorem ofJson_accepts_reports (text : String) (r : Report) :
    (ofJson text = .ok r → ∃ v, Written (.element v) text.toList [] ∧
      (∀ v', Written (.element v') text.toList [] → v' = v) ∧ IsReport v r) ∧
    (∀ v, Written (.element v) text.toList [] → Paired v → IsReport v r → ofJson text = .ok r) ∧
    ∀ (text' : String) (ms ms' : List (List Piece × Json)),
      Written (.element (.object ms)) text.toList [] →
      Written (.element (.object ms')) text'.toList [] → Paired (.object ms) →
      Paired (.object ms') → (∀ key ∈ reportKeys, valuesUnder key ms = valuesUnder key ms') →
        (ofJson text = .ok r ↔ ofJson text' = .ok r) := by
  have hsound : ∀ {text : String} {v : Json}, Written (.element v) text.toList [] →
      ofJson text = .ok r → IsReport v r := by
    intro text v hv h
    obtain ⟨v', hv', hr⟩ := whole_sound reads_report h
    rwa [Written.unique hv hv'] at hr
  have hcomplete : ∀ {text : String} {v : Json}, Written (.element v) text.toList [] → Paired v →
      IsReport v r → ofJson text = .ok r := fun hv hp hr => whole_complete reads_report hv hp hr
  refine ⟨fun h => ?_, fun v => hcomplete, fun text' ms ms' hw hw' hp hp' hsame => ?_⟩
  · obtain ⟨v, hv, hr⟩ := whole_sound reads_report h
    exact ⟨v, hv, fun v' hv' => Written.unique hv hv', hr⟩
  · have hcongr := isReport_object_congr hsame r
    exact ⟨fun h => hcomplete hw' hp' (hcongr.1 (hsound hw h)),
      fun h => hcomplete hw hp (hcongr.2 (hsound hw' h))⟩

def listed : Json :=
  .list [.flag true, .string [.unit 0x61], .number ⟨false, ['7'], none, none⟩, .list []]

theorem ofJson_accepts_reports_listed :
    Written (.element listed) " [true,\"\\u0061\", 7 ,[ ]]".toList [] ∧ Paired listed ∧
      IsReport listed ⟨true, "a", 7, []⟩ ∧
      ofJson " [true,\"\\u0061\", 7 ,[ ]]" = .ok ⟨true, "a", 7, []⟩ := by
  have hspace : ∀ text : List Char, Blanks (' ' :: text) text :=
    fun text => .cons (by decide) .none
  have hunit : ∀ text : List Char, CodeUnit 0x61 ('0' :: '0' :: '6' :: '1' :: text) text := by
    intro text
    have hzero : Hex '0' 0 := by decide
    have hsix : Hex '6' 6 := by decide
    have hone : Hex '1' 1 := by decide
    exact .mk hzero hzero hsix hone
  have hseven : ∀ text : List Char, Number ⟨false, ['7'], none, none⟩ ('7' :: text) text :=
    fun text => .mk .absent ⟨⟨by simp, by simp, rfl⟩, by simp⟩ .absent .absent
  have hwritten : Written (.element listed) " [true,\"\\u0061\", 7 ,[ ]]".toList [] := by
    refine .element (hspace _) (.list ?_) .none
    apply Written.moreElements (.element .none .yes .none)
    apply Written.moreElements (.element .none (.string (.unit (hunit _) .close)) .none)
    apply Written.moreElements (.element (hspace _) (.number (hseven _)) (hspace _))
    exact .lastElement (.element .none (.emptyList (hspace _)) .none)
  have hpaired : Paired listed := by
    apply Paired.list
    simp only [List.forall_mem_cons]
    exact ⟨.flag true, .string (by decide), .number _, .list (by simp), by simp⟩
  have hreport : IsReport listed ⟨true, "a", 7, []⟩ :=
    ⟨_, _, _, _, .list rfl, rfl, ⟨_, rfl, by decide⟩, ⟨_, rfl, by decide, by decide⟩, _, rfl, .nil⟩
  exact ⟨hwritten, hpaired, hreport,
    (ofJson_accepts_reports _ _).2.1 listed hwritten hpaired hreport⟩

end LetReturn.ReportTexts
