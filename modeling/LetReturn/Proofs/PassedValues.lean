import LetReturn.Proofs.Rendering

set_option autoImplicit false

namespace LetReturn.PassedValues
open Utf8 Tokens Scanning Diagnostics Programs Parsing
open Lexemes Lexing Segments Lookahead Concatenation Characters Rendering

/-- No semicolon, and no character of the class in front. -/
def Passed (P : Char → Prop) (value : String) : Prop :=
  ';' ∉ value.toList ∧ ∀ c ∈ value.toList.head?, ¬ P c

def IsLetter (c : Char) : Prop := c.isAlpha = true ∨ c = '_'

def keeping (p : Parse) (s : Statement) : Parse := ⟨⟨p.program.statements ++ [s]⟩, p.diagnostics⟩

section Texts
variable {P : Char → Prop} {value : String}

theorem Passed.not_mem (h : Passed P value) : 0x3B ∉ ofString value :=
  fun hmem => h.1 (mem_toList (by decide) hmem)

theorem Passed.head (h : Passed P value) {b : UInt8} (hlow : b < 0x80)
    (hb : b ∈ (ofString value).head?) : ¬ P (Char.ofUInt8 b) :=
  h.2 _ (head_toList hlow hb)

theorem Passed.not_sign (h : Passed (· = '=') value) : (ofString value).head? ≠ some 0x3D :=
  fun hb => h.head (by decide) hb rfl

theorem Passed.not_letter (h : Passed IsLetter value) :
    ∀ b ∈ (ofString value).head?, ¬ Letter b := by
  intro b hb hletter
  have hclass := (isLetter_iff b).2 hletter
  rw [isLetter, Bool.or_eq_true, beq_iff_eq] at hclass
  exact h.head hletter.ascii hb hclass

end Texts

section Parses
variable {ts : List Token} {s : Statement}

theorem ofBytes_keeping {p text : List UInt8} (hp : EndsStatement p)
    (hlexed : Lexed p.length text ts) (hcut : ∀ last, Cut last ts [⟨ts, .kept s⟩]) :
    Parse.ofScanner (.ofBytes (p ++ text)) = keeping (Parse.ofScanner (.ofBytes p)) s := by
  have hfront : Lexed 0 p (words ⟨0, p⟩) := lexed_words ⟨0, p⟩
  rw [← Nat.zero_add p.length] at hlexed
  have hwords : words ⟨0, p ++ text⟩ = words ⟨0, p⟩ ++ ts :=
    (Lexed.append hfront hp hlexed).words_eq
  have hall := Cut.append (cut_segments ⟨0, p⟩) (Lexed.closed hfront hp)
    (hcut (ending ⟨0, p ++ text⟩))
  have houtcome : ∀ source : List UInt8, Parse.ofScanner (.ofBytes source) = _ :=
    fun source => ofScanner_eq_outcome ⟨0, source⟩
  rw [houtcome (p ++ text), hwords, hall.segments_eq, outcome_append, houtcome p]
  exact congrArg _ (List.append_nil _)

/-- What is read behind the semicolon does not depend on the value. -/
theorem ofText_passed {p opening value : String} (hp : EndsStatement (ofString p))
    (hlexed : Lexed (ofString p).length (ofString opening ++ (ofString value ++ [0x3B])) ts)
    (hcut : ∀ last, Cut last ts [⟨ts, .kept s⟩]) (q : String) :
    Parse.ofText (p ++ opening ++ value ++ ";" ++ q) =
      followedBy (keeping (Parse.ofText p) s)
        ((ofString (p ++ opening ++ ";")).length + (ofString value).length) (Parse.ofText q) := by
  have hmark : ofString ";" = [0x3B] := by decide
  have hfront : ofString (p ++ opening ++ value ++ ";") =
      ofString p ++ (ofString opening ++ (ofString value ++ [0x3B])) := by
    simp only [ofString_append, hmark, List.append_assoc]
  have hends : EndsStatement (ofString (p ++ opening ++ value ++ ";")) := by
    rw [ofString_append, hmark]
    exact endsStatement_semicolon _
  have hlength : (ofString (p ++ opening ++ value ++ ";")).length =
      (ofString (p ++ opening ++ ";")).length + (ofString value).length := by
    simp only [ofString_append, List.length_append]
    omega
  have hparse := ofBytes_append hends (ofString q)
  rw [hlength, ← ofString_append, hfront, ofBytes_keeping hp hlexed hcut] at hparse
  exact hparse

theorem binding_passed {p x b : String} (hp : EndsStatement (ofString p)) (hx : IsName x)
    (hb : Passed (· = '=') b) (q : String) :
    Parse.ofText (p ++ ("let " ++ x ++ " =") ++ b ++ ";" ++ q) =
      followedBy (keeping (Parse.ofText p) (letAt (ofString p).length x))
        ((ofString (p ++ ("let " ++ x ++ " =") ++ ";")).length + (ofString b).length)
        (Parse.ofText q) := by
  have hword : ofString "let " = ofString "let" ++ [0x20] := by decide
  have hsign : ofString " =" = [0x20, 0x3D] := by decide
  have hopening : ofString ("let " ++ x ++ " =") =
      ofString "let" ++ 0x20 :: (ofString x ++ [0x20, 0x3D]) := by
    simp only [ofString_append, hword, hsign, List.append_assoc, List.cons_append, List.nil_append]
  obtain ⟨ts, hlexed, hcut⟩ := binding_reads hx hb.not_mem hb.not_sign (ofString p).length
  refine ofText_passed hp ?_ hcut q
  rw [hopening]
  simpa only [List.append_assoc, List.cons_append, List.nil_append] using hlexed

theorem returning_passed {p b : String} (hp : EndsStatement (ofString p)) (hb : Passed IsLetter b)
    (q : String) :
    Parse.ofText (p ++ "return" ++ b ++ ";" ++ q) =
      followedBy (keeping (Parse.ofText p) (returnAt (ofString p).length))
        ((ofString (p ++ "return" ++ ";")).length + (ofString b).length) (Parse.ofText q) := by
  obtain ⟨ts, hlexed, hcut⟩ := returning_reads hb.not_mem hb.not_letter (ofString p).length
  exact ofText_passed hp hlexed hcut q

end Parses

/-- Texts that differ in a value are parsed alike, whatever the values are, but that what stems from
the text behind the value is moved by the difference of their lengths. -/
theorem value_text_passed {p : String} (hp : EndsStatement (ofString p)) (q : String) :
    (∀ x, IsName x → ∀ b b' : String, Passed (· = '=') b → Passed (· = '=') b' →
      let opening := "let " ++ x ++ " ="
      let front := keeping (Parse.ofText p) (letAt (ofString p).length x)
      let n := (ofString (p ++ opening ++ ";")).length
      Parse.ofText (p ++ opening ++ b ++ ";" ++ q) =
          followedBy front (n + (ofString b).length) (Parse.ofText q) ∧
        Parse.ofText (p ++ opening ++ b' ++ ";" ++ q) =
          followedBy front (n + (ofString b').length) (Parse.ofText q)) ∧
    ∀ b b' : String, Passed IsLetter b → Passed IsLetter b' →
      let front := keeping (Parse.ofText p) (returnAt (ofString p).length)
      let n := (ofString (p ++ "return" ++ ";")).length
      Parse.ofText (p ++ "return" ++ b ++ ";" ++ q) =
          followedBy front (n + (ofString b).length) (Parse.ofText q) ∧
        Parse.ofText (p ++ "return" ++ b' ++ ";" ++ q) =
          followedBy front (n + (ofString b').length) (Parse.ofText q) :=
  ⟨fun _ hx _ _ hb hb' => ⟨binding_passed hp hx hb q, binding_passed hp hx hb' q⟩,
    fun _ _ hb hb' => ⟨returning_passed hp hb q, returning_passed hp hb' q⟩⟩

/-- Text that would be a statement with its semicolon, a character, a line feed, and a word cut off
by the semicolon. -/
def tangled : String := " let y = \u00E9\n5 5 = =) retur"

theorem value_text_passed_tangled :
    let p := "let 5; return x;\n"
    let q := " let z 1; let w = 2"
    EndsStatement (ofString p) ∧ IsName "x_" ∧ Passed (· = '=') tangled ∧ Passed (· = '=') "" ∧
      Passed IsLetter tangled ∧
      Parse.ofText (p ++ ("let " ++ "x_" ++ " =") ++ tangled ++ ";" ++ q) =
        followedBy (keeping (Parse.ofText p) (letAt 17 "x_")) 52 (Parse.ofText q) ∧
      Parse.ofText (p ++ ("let " ++ "x_" ++ " =") ++ "" ++ ";" ++ q) =
        followedBy (keeping (Parse.ofText p) (letAt 17 "x_")) 26 (Parse.ofText q) ∧
      Parse.ofText (p ++ "return" ++ tangled ++ ";" ++ q) =
        followedBy (keeping (Parse.ofText p) (returnAt 17)) 50 (Parse.ofText q) := by
  intro p q
  have hp : EndsStatement (ofString p) := by decide
  have hx : IsName "x_" := by simp [IsName]
  have htangled : Passed (· = '=') tangled := by simp [Passed, tangled]
  have hempty : Passed (· = '=') "" := by simp [Passed]
  have hletter : Passed IsLetter tangled := by simp [Passed, IsLetter, tangled]
  have hlength : (ofString p).length = 17 := by decide
  have hfront : (ofString (p ++ ("let " ++ "x_" ++ " =") ++ ";")).length = 26 := by decide
  have hfront' : (ofString (p ++ "return" ++ ";")).length = 24 := by decide
  have hvalue : (ofString tangled).length = 26 := by decide
  obtain ⟨hfirst, hsecond⟩ := (value_text_passed hp q).1 "x_" hx tangled "" htangled hempty
  have hthird := ((value_text_passed hp q).2 tangled tangled hletter hletter).1
  rw [hlength, hfront] at hfirst hsecond
  rw [hlength, hfront', hvalue] at hthird
  rw [hvalue] at hfirst
  exact ⟨hp, hx, htangled, hempty, hletter, hfirst, hsecond, hthird⟩

end LetReturn.PassedValues
