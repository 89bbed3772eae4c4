import PascalAsm.Json.Read
import PascalAsm.Proofs.RoundTrip.Numerals

/-!
# JSON texts that are scanned

The text of a value is scanned as the tokens of the value, whatever its strings contain. A literal
is scanned as the text that it was made from, because every character is written in a way that
stands for itself alone. A word is known to be a token only when something ends it, so after the
text of a number the scanner is still in the middle of a word.

* **`Scanner.Rests`** — some tokens would have been read if the text ended here. What follows a
  value in a text ends the word if there is one.
* **`Json.scan_render`** — the text of a value is scanned as its tokens, at any level of
  indentation.
-/

namespace PascalAsm

/-! ## Words -/

/-- A numeral is a number and not the name of a constant. Names of constants begin with letters that
no numeral begins with. -/
theorem Token.word?_of_ofString? {w : String} {n : Numeral} (h : Numeral.ofString? w = some n) :
    word? w = some (.number w) := by
  -- No numeral begins with a letter, and each of the constants does.
  have hne (c : Char) (cs : List Char) (hc : Numeral.isPart c = false) :
      w ≠ String.ofList (c :: cs) := by
    rintro rfl
    have hpart := Numeral.isPart_of_ofString? h c (by simp)
    rw [hpart] at hc
    cases hc
  have hnull : w ≠ "null" := hne 'n' _ (by decide)
  have htrue : w ≠ "true" := hne 't' _ (by decide)
  have hfalse : w ≠ "false" := hne 'f' _ (by decide)
  rw [word?, if_neg hnull, if_neg htrue, if_neg hfalse, h]
  rfl

/-- No word ends in the middle of a numeral. So a numeral is scanned as one word to its end. -/
theorem endsWord_of_isPart {c : Char} (h : Numeral.isPart c = true) : endsWord c = false := by
  by_contra hends
  -- There are eleven characters that end a word, and no numeral has one of them: `hall`.
  have hmem : c ∈ [' ', '\t', '\n', '\r', '"', '{', '}', '[', ']', ':', ','] := by
    rw [Bool.not_eq_false, endsWord, Bool.or_eq_true, Bool.or_eq_true] at hends
    rcases hends with (hblank | hquote) | hpunctuation
    · simp only [isBlank, Bool.or_eq_true, decide_eq_true_eq] at hblank
      rcases hblank with ((rfl | rfl) | rfl) | rfl <;> simp
    · simp only [decide_eq_true_eq] at hquote
      simp [hquote]
    · unfold Token.punctuation? at hpunctuation
      split at hpunctuation <;> simp at hpunctuation ⊢
  have hall : ∀ d ∈ [' ', '\t', '\n', '\r', '"', '{', '}', '[', ']', ':', ','],
      Numeral.isPart d = false := by simp [Numeral.isPart]
  rw [hall c hmem] at h
  cases h

namespace Scanner

/-- If the text ended here, these tokens would have been read, last first. A pending word counts as
a token already, if it is one. -/
inductive Rests : Scanner → List Token → Prop
  | nothing {tokens : List Token} : Rests ⟨tokens, .nothing⟩ tokens
  | word {tokens : List Token} {chars : List Char} {t : Token}
    (h : Token.word? (String.ofList chars.reverse) = some t) : Rests ⟨tokens, .word chars⟩ (t :: tokens)

namespace Rests

variable {s : Scanner} {tokens : List Token}

theorem finish (h : s.Rests tokens) : s.finish = some tokens.reverse := by
  cases h with
  | nothing => rfl
  | word h => simp [Scanner.finish, h]

/-- What ends a word is read as if nothing had been pending. That is what allows a text to be
scanned piece by piece. -/
theorem step (h : s.Rests tokens) {c : Char} (hc : endsWord c = true) :
    s.step c = some (begin tokens c) := by
  cases h with
  | nothing => rfl
  | word h => simp [Scanner.step, hc, h]

theorem run_cons (h : s.Rests tokens) {c : Char} (hc : endsWord c = true) (cs : List Char) :
    s.run (c :: cs) = (begin tokens c).run cs := by
  rw [Scanner.run, h.step hc]

end Rests

theorem run_word_append {tokens : List Token} {chars cs : List Char}
    (h : ∀ c ∈ cs, endsWord c = false) :
    (Scanner.mk tokens (.word chars)).run cs = some ⟨tokens, .word (cs.reverse ++ chars)⟩ := by
  induction cs generalizing chars with
  | nil => rfl
  | cons c cs ih =>
    obtain ⟨hc, hcs⟩ := List.forall_mem_cons.1 h
    -- Each of these characters goes on with the word, `hc`.
    have hstep : (Scanner.mk tokens (.word chars)).step c = some ⟨tokens, .word (c :: chars)⟩ := by
      simp [step, hc]
    rw [run, hstep]
    simp [ih hcs]

/-- A word is scanned as a token. Its characters are collected one by one, and none of them ends it,
by `hno`. -/
theorem run_word {tokens : List Token} {w : String} {t : Token} (hne : w.toList ≠ [])
    (hno : ∀ c ∈ w.toList, endsWord c = false) (ht : Token.word? w = some t) :
    ∃ s, (Scanner.mk tokens .nothing).run w.toList = some s ∧ s.Rests (t :: tokens) := by
  -- the first character begins the word, the others go on with it
  obtain ⟨c, cs, hw⟩ := List.exists_cons_of_ne_nil hne
  rw [hw] at hno ⊢
  obtain ⟨hc, hcs⟩ := List.forall_mem_cons.1 hno
  have hbegin : begin tokens c = ⟨tokens, .word [c]⟩ := by
    simp only [endsWord, Bool.or_eq_false_iff, Option.isSome_eq_false_iff, Option.isNone_iff_eq_none,
      decide_eq_false_iff_not] at hc
    obtain ⟨⟨hblank, hquote⟩, hpunctuation⟩ := hc
    simp [begin, hblank, hquote, hpunctuation]
  refine ⟨⟨tokens, .word (cs.reverse ++ [c])⟩, ?_, .word ?_⟩
  · show (begin tokens c).run cs = _
    rw [hbegin, run_word_append hcs]
  · rw [List.reverse_append, List.reverse_reverse, List.reverse_singleton, List.singleton_append, ← hw,
      String.ofList_toList, ht]

/-! ## Blanks -/

theorem run_blanks (tokens : List Token) (n : Nat) :
    (Scanner.mk tokens .nothing).run (List.replicate n ' ') = some ⟨tokens, .nothing⟩ := by
  induction n with
  | zero => rfl
  | succ n ih => exact ih

/-- The start of a line ends what is pending. What follows it are blanks, which are no tokens. -/
theorem Rests.run_newline {s : Scanner} {tokens : List Token} (h : s.Rests tokens) (level : Nat) :
    s.run (Json.newline level).toList = some ⟨tokens, .nothing⟩ := by
  have hchars : (Json.newline level).toList = '\n' :: List.replicate (2 * level) ' ' := by
    simp [Json.newline]
  rw [hchars, h.run_cons (by decide)]
  exact run_blanks tokens (2 * level)

/-! ## String literals -/

theorem hexValue?_hexDigit {n : Nat} (h : n < 16) : Escape.hexValue? (Json.hexDigit n) = some n := by
  have hall : ∀ m < 16, Escape.hexValue? (Json.hexDigit m) = some m := by decide
  exact hall n h

/-- An escape of two digits is read as the character of their number. Control characters are written
with four digits, of which the first two are zero. -/
theorem run_control {tokens : List Token} {units : List CodeUnit} {n : Nat} (h : n < 256) :
    (Scanner.mk tokens (.literal units .none)).run
        ['\\', 'u', '0', '0', Json.hexDigit (n / 16), Json.hexDigit (n % 16)] =
      some ⟨tokens, .literal (.char (Char.ofNat n) :: units) .none⟩ := by
  have hhigh := hexValue?_hexDigit (n := n / 16) (by omega)
  have hlow := hexValue?_hexDigit (n := n % 16) (by omega)
  have hzero : Escape.hexValue? '0' = some 0 := by decide
  have hvalue : 16 * (n / 16) + n % 16 = n := by omega
  have hchar : CodeUnit.ofHex n = .char (Char.ofNat n) := if_neg (by omega)
  simp [run, step, literalStep, hhigh, hlow, hzero, hvalue, hchar]

/-- Inside a literal every character is read as it was written. By cases: it has a short escape, or
a long one, or stands for itself. -/
theorem run_escape (tokens : List Token) (units : List CodeUnit) (c : Char) :
    (Scanner.mk tokens (.literal units .none)).run (Json.escape c) =
      some ⟨tokens, .literal (.char c :: units) .none⟩ := by
  unfold Json.escape
  split_ifs with hquote hbackslash hb hf hn hr ht hcontrol
  · subst hquote; rfl
  · subst hbackslash; rfl
  -- the control characters that have a letter
  · subst hb; rfl
  · subst hf; rfl
  · subst hn; rfl
  · subst hr; rfl
  · subst ht; rfl
  · rw [run_control (by omega), Char.ofNat_toNat]
  · simp [run, step, literalStep, hquote, hbackslash, hcontrol]

theorem run_escapes (tokens : List Token) (units : List CodeUnit) (cs : List Char) :
    (Scanner.mk tokens (.literal units .none)).run (cs.flatMap Json.escape) =
      some ⟨tokens, .literal (cs.reverse.map .char ++ units) .none⟩ := by
  induction cs generalizing units with
  | nil => rfl
  | cons c cs ih =>
    rw [List.flatMap_cons, run_append, run_escape, Option.bind_some, ih]
    simp

theorem textBefore_chars (known cs : List Char) :
    CodeUnit.textBefore known (cs.map .char) = some (String.ofList (cs.reverse ++ known)) := by
  induction cs generalizing known with
  | nil => rfl
  | cons c cs ih =>
    rw [List.map_cons, CodeUnit.textBefore, ih]
    simp

/-- A literal is scanned as the text that it stands for, or as a literal without one. -/
theorem Rests.run_quote {s : Scanner} {tokens : List Token} (h : s.Rests tokens)
    (text : Option String) :
    s.run (Json.quote text).toList = some ⟨.string text :: tokens, .nothing⟩ := by
  cases text with
  -- A text that is none is written with a lone surrogate, which is scanned but stands for nothing.
  | none =>
    show s.run ('"' :: "\\ud800\"".toList) = _
    rw [h.run_cons (by decide)]
    rfl
  | some text =>
    have hchars : (Json.quote (some text)).toList =
        '"' :: (text.toList.flatMap Json.escape ++ ['"']) := by
      simp [Json.quote]
    have hbegin : begin tokens '"' = ⟨tokens, .literal [] .none⟩ := rfl
    rw [hchars, h.run_cons (by decide), hbegin, run_append, run_escapes, Option.bind_some]
    show some (Scanner.mk (.string (CodeUnit.textBefore [] (text.toList.reverse.map .char ++ []))
      :: tokens) .nothing) = _
    rw [List.append_nil, textBefore_chars, List.append_nil, List.reverse_reverse,
      String.ofList_toList]

end Scanner

/-! ## Values -/

namespace Json

mutual

/-- The numbers in a value are spelled as numerals. Strings may contain anything, since escapes are
made when they are written. -/
def Spelled : Json → Prop
  | number spelling => (Numeral.ofString? spelling).isSome = true
  | array items => SpelledAll items
  | object members => SpelledMembers members
  | null | bool _ | string _ => True

/-- The numbers in some items are spelled as numerals. It is one condition for each of them. -/
def SpelledAll : List Json → Prop
  | [] => True
  | item :: rest => item.Spelled ∧ SpelledAll rest

/-- The numbers in some members are spelled as numerals. It is one condition for each of their
values. -/
def SpelledMembers : List (Option String × Json) → Prop
  | [] => True
  | (_, value) :: rest => value.Spelled ∧ SpelledMembers rest

end

mutual

/-- The tokens of a value. A container has a token at each end, and separators are tokens as well.
-/
def tokens : Json → List Token
  | null => [.null]
  | bool b => [.bool b]
  | number spelling => [.number spelling]
  | string text => [.string text]
  | array [] => [.beginArray, .endArray]
  | array (item :: rest) => .beginArray :: (item.tokens ++ (tokensOfItems rest ++ [.endArray]))
  | object [] => [.beginObject, .endObject]
  | object ((name, value) :: rest) =>
    .beginObject :: .string name :: .colon ::
      (value.tokens ++ (tokensOfMembers rest ++ [.endObject]))

/-- The tokens of the further items of an array. Each is preceded by a comma, which the first item
of an array is not. -/
def tokensOfItems : List Json → List Token
  | [] => []
  | item :: rest => .comma :: (item.tokens ++ tokensOfItems rest)

/-- The tokens of the further members of an object. Each is preceded by a comma, and its name is
followed by a colon. -/
def tokensOfMembers : List (Option String × Json) → List Token
  | [] => []
  | (name, value) :: rest =>
    .comma :: .string name :: .colon :: (value.tokens ++ tokensOfMembers rest)

end

open Scanner

/-- From a scanner where nothing is pending, the text is scanned as the tokens. What was read before
stays, and a word at the end of the text may still be pending. -/
def Scans (text : String) (ts : List Token) : Prop :=
  ∀ before, ∃ s, (Scanner.mk before .nothing).run text.toList = some s ∧ s.Rests (ts.reverse ++ before)

/-- From a scanner that may be in the middle of a word, the text is scanned as the tokens. -/
def ScansAfter (text : String) (ts : List Token) : Prop :=
  ∀ (s : Scanner) before, s.Rests before →
    ∃ s', s.run text.toList = some s' ∧ s'.Rests (ts.reverse ++ before)

section

variable {a b : String} {ts us : List Token}

theorem ScansAfter.scans (h : ScansAfter a ts) : Scans a ts := fun before => h _ before .nothing

theorem scansAfter_empty : ScansAfter "" [] := fun s _ hs => ⟨s, rfl, hs⟩

theorem ScansAfter.append (ha : ScansAfter a ts) (hb : ScansAfter b us) :
    ScansAfter (a ++ b) (ts ++ us) := by
  intro s before hs
  obtain ⟨s₁, hrun, hs₁⟩ := ha s before hs
  obtain ⟨s₂, hrun', hs₂⟩ := hb s₁ _ hs₁
  refine ⟨s₂, ?_, ?_⟩
  · rw [String.toList_append, run_append, hrun, Option.bind_some, hrun']
  · rwa [List.reverse_append, List.append_assoc]

/-- A blank ends a word, so that whatever begins afterwards begins anew. So the weaker `Scans` is
enough for what stands in a line of its own. -/
theorem Scans.after_newline (h : Scans a ts) (level : Nat) : ScansAfter (newline level ++ a) ts := by
  intro s before hs
  rw [String.toList_append, run_append, hs.run_newline level, Option.bind_some]
  exact h before

theorem Scans.after_colon (h : Scans a ts) : ScansAfter (": " ++ a) (.colon :: ts) := by
  intro s before hs
  have hcolon : s.run (": " : String).toList = some ⟨.colon :: before, .nothing⟩ := by
    show s.run [':', ' '] = _
    rw [hs.run_cons (by decide)]
    rfl
  rw [String.toList_append, run_append, hcolon, Option.bind_some, List.reverse_cons, List.append_assoc]
  exact h (.colon :: before)

theorem scansAfter_punctuation {c : Char} {t : Token} (ha : a.toList = [c])
    (hc : Token.punctuation? c = some t) : ScansAfter a [t] := by
  intro s before hs
  have hends : endsWord c = true := by simp [endsWord, hc]
  have hbegin : begin before c = ⟨t :: before, .nothing⟩ := by
    unfold Token.punctuation? at hc
    split at hc <;> cases hc <;> rfl
  rw [ha, hs.run_cons hends, hbegin]
  exact ⟨_, rfl, .nothing⟩

theorem scansAfter_beginArray : ScansAfter "[" [.beginArray] :=
  scansAfter_punctuation (c := '[') rfl rfl

theorem scansAfter_endArray : ScansAfter "]" [.endArray] := scansAfter_punctuation (c := ']') rfl rfl

theorem scansAfter_beginObject : ScansAfter "\x7b" [.beginObject] :=
  scansAfter_punctuation (c := '{') rfl rfl

theorem scansAfter_endObject : ScansAfter "\x7d" [.endObject] :=
  scansAfter_punctuation (c := '}') rfl rfl

theorem scansAfter_comma : ScansAfter "," [.comma] := scansAfter_punctuation (c := ',') rfl rfl

theorem scansAfter_quote (text : Option String) : ScansAfter (quote text) [.string text] :=
  fun _ _ hs => ⟨_, hs.run_quote text, .nothing⟩

theorem scans_word {t : Token} (hne : a.toList ≠ []) (hno : ∀ c ∈ a.toList, endsWord c = false)
    (ht : Token.word? a = some t) : Scans a [t] := fun _ => run_word hne hno ht

theorem scans_number (h : (Numeral.ofString? a).isSome = true) : Scans a [.number a] := by
  obtain ⟨n, hn⟩ := Option.isSome_iff_exists.1 h
  refine scans_word (Numeral.toList_ne_nil_of_ofString? hn) ?_ (Token.word?_of_ofString? hn)
  exact fun c hc => endsWord_of_isPart (Numeral.isPart_of_ofString? hn c hc)

/-- No word ends in the middle of the name of a constant. They are scanned as words, and told from
numerals afterwards. -/
theorem endsWord_name : ∀ name ∈ ["null", "true", "false"], ∀ c ∈ name.toList,
    endsWord c = false := by
  simp [endsWord, isBlank, Token.punctuation?]

end

mutual

/-- The text of a value is scanned as its tokens, if the numbers in it are numerals. -/
theorem scans_renderAt (level : Nat) : ∀ {v : Json}, v.Spelled → Scans (v.renderAt level) v.tokens
  | null, _ => scans_word (a := "null") (by decide) (endsWord_name _ (by simp)) rfl
  | bool true, _ => scans_word (a := "true") (by decide) (endsWord_name _ (by simp)) rfl
  | bool false, _ => scans_word (a := "false") (by decide) (endsWord_name _ (by simp)) rfl
  | number spelling, h => by
    rw [Spelled] at h
    exact scans_number h
  | string text, _ => (scansAfter_quote text).scans
  | array [], _ => by
    simpa [renderAt, tokens] using (scansAfter_beginArray.append scansAfter_endArray).scans
  | array (item :: rest), h => by
    rw [Spelled, SpelledAll] at h
    -- every item is on a line of its own, and the line break ends what stands before
    have hitem := (scans_renderAt (level + 1) h.1).after_newline (level + 1)
    have hend := scansAfter_endArray.scans.after_newline level
    have hrest := (scans_renderItems (level + 1) h.2).append hend
    have hall := scansAfter_beginArray.append (hitem.append hrest)
    simp only [String.append_assoc, renderAt, tokens] at hall ⊢
    exact hall.scans
  | object [], _ => by
    simpa [renderAt, tokens] using (scansAfter_beginObject.append scansAfter_endObject).scans
  | object ((name, value) :: rest), h => by
    rw [Spelled, SpelledMembers] at h
    have hname := (scansAfter_quote name).scans.after_newline (level + 1)
    have hvalue := (scans_renderAt (level + 1) h.1).after_colon
    have hend := scansAfter_endObject.scans.after_newline level
    have hrest := (scans_renderMembers (level + 1) h.2).append hend
    have hall := scansAfter_beginObject.append (hname.append (hvalue.append hrest))
    simp only [String.append_assoc, renderAt, tokens] at hall ⊢
    exact hall.scans

theorem scans_renderItems (level : Nat) : ∀ {items : List Json}, SpelledAll items →
    ScansAfter (renderItems level items) (tokensOfItems items)
  | [], _ => scansAfter_empty
  | item :: rest, h => by
    rw [SpelledAll] at h
    have hitem := (scans_renderAt level h.1).after_newline level
    have hall := scansAfter_comma.append (hitem.append (scans_renderItems level h.2))
    simp only [String.append_assoc, renderItems, tokensOfItems] at hall ⊢
    exact hall

theorem scans_renderMembers (level : Nat) : ∀ {members : List (Option String × Json)},
    SpelledMembers members → ScansAfter (renderMembers level members) (tokensOfMembers members)
  | [], _ => scansAfter_empty
  | (name, value) :: rest, h => by
    rw [SpelledMembers] at h
    have hname := (scansAfter_quote name).scans.after_newline level
    have hvalue := (scans_renderAt level h.1).after_colon
    have hrest := scans_renderMembers level h.2
    -- Comma, name, colon and value, and then the members behind them.
    have hall := scansAfter_comma.append (hname.append (hvalue.append hrest))
    simp only [String.append_assoc, renderMembers, tokensOfMembers] at hall ⊢
    exact hall

end

/-- The text of a value consists of the tokens of the value. By recursion over the value, in the
layout with one item to a line. -/
theorem scan_render {v : Json} (h : v.Spelled) : Token.scan v.render = some v.tokens := by
  obtain ⟨s, hrun, hs⟩ := scans_renderAt 0 h []
  have hfinish := hs.finish
  rw [List.append_nil, List.reverse_reverse] at hfinish
  show (Scanner.start.run (v.renderAt 0).toList).bind Scanner.finish = _
  rw [Scanner.start, hrun, Option.bind_some, hfinish]

end Json

end PascalAsm
