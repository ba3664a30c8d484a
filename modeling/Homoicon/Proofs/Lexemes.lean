import Homoicon.Source.Scan
import Homoicon.Value.Mold

/-!
# Lexemes

How tokens stand in source text.  A run ends where a delimiter follows and begins with nothing that
another token begins with; a tag and a text end with a mark of their own.  What the lexer finds is
always of this shape, and what is of this shape is found again.
-/

namespace Homoicon

/-- Whether the written form of a text shows `c` in a way that is read back as `c`: it is no caret,
no return and no zero, and it is not written by its code point. -/
def Text.isFaithful (c : Char) : Bool :=
  c ≠ '^' && c ≠ '\r' && c ≠ '\x00' && quotedChar c ≠ codePointEscape c

namespace Source

/-- Characters that are read as one run if a delimiter follows. -/
structure IsRun (cs : List Char) : Prop where
  ne_nil : cs ≠ []
  word : ∀ c ∈ cs, isDelimiter c = false
  apostrophe : cs.head? ≠ some '\x27'
  atSign : cs.head? = some '@' → cs.tail = []
  lessThan : cs.head? = some '<' → opensTag cs.tail = false

/-- Characters of a tag: no blank, no closing mark, and a beginning that tells it from a word. -/
structure IsTag (cs : List Char) : Prop where
  opens : opensTag cs = true
  inner : ∀ c ∈ cs, c ≠ '>' ∧ Text.isBlank c = false

/-- What may follow a token: a blank, or a closing bracket. -/
def Stops (rest : List Char) : Prop := ∃ c r, rest = c :: r ∧ (c = ' ' ∨ c = ']' ∨ c = ')')

theorem IsRun.extend {cs ds es : List Char} (h : IsRun (cs ++ '/' :: ds)) (hcs : cs ≠ [])
    (hes : ∀ c ∈ es, isDelimiter c = false) : IsRun (cs ++ '/' :: es) := by
  obtain ⟨c, cs, rfl⟩ := List.exists_cons_of_ne_nil hcs
  refine ⟨by simp, ?_, by simpa using h.apostrophe, fun hat => ?_, fun hlt => ?_⟩
  · have hword := h.word
    simp only [List.mem_append, List.mem_cons] at hword ⊢
    rintro d (hd | rfl | hd)
    · exact hword d (.inl hd)
    · exact hword '/' (.inr (.inl rfl))
    · exact hes d hd
  · have htail := h.atSign (by simpa using hat)
    simp at htail
  · have hopens := h.lessThan (by simpa using hlt)
    cases cs with
    | nil => exact hopens
    | cons d cs => exact hopens

/-! ### Reading one token -/

def Found.token (make : String → Token) (f : Found) : Except ScanError (Token × Cursor) :=
  f.map fun r => (make (String.ofList r.1), r.2)

theorem readToken_cons (c : Char) (cs : List Char) (p : Position) :
    readToken ⟨c :: cs, p⟩ =
      if c = '[' then .ok (.opening .square, ⟨cs, p.after c⟩)
      else if c = ']' then .ok (.closing .square, ⟨cs, p.after c⟩)
      else if c = '(' then .ok (.opening .round, ⟨cs, p.after c⟩)
      else if c = ')' then .ok (.closing .round, ⟨cs, p.after c⟩)
      else if c = ',' then .ok (.comma, ⟨cs, p.after c⟩)
      else if c = '"' then (readText cs (p.after c)).token .text
      else if c = '\x7b' then (readBraced 0 cs (p.after c)).token .text
      else if c = '\x7d' then .error ⟨.unexpectedBrace, p⟩
      else if c = '\x27' then .ok (.apostrophe, ⟨cs, p.after c⟩)
      else if c = '@' && silences cs then .ok (.atSign, ⟨cs, p.after c⟩)
      else if c = '<' && opensTag cs then (readTag cs (p.after c)).token .tag
      else .ok (.run (String.ofList (readRun ⟨c :: cs, p⟩).1), (readRun ⟨c :: cs, p⟩).2) := rfl

theorem not_isDelimiter_ne {c d : Char} (h : isDelimiter c = false) (hd : isDelimiter d = true) :
    c ≠ d := by
  rintro rfl
  rw [h] at hd
  cases hd

theorem takeWhile_word {cs rest : List Char} (hcs : ∀ c ∈ cs, isDelimiter c = false)
    (hrest : ∀ c ∈ rest.head?, isDelimiter c = true) :
    (cs ++ rest).takeWhile (fun c => !isDelimiter c) = cs ∧
      (cs ++ rest).dropWhile (fun c => !isDelimiter c) = rest := by
  induction cs with
  | nil =>
    cases rest with
    | nil => exact ⟨rfl, rfl⟩
    | cons c r =>
      have hc := hrest c rfl
      simp [hc]
  | cons c cs ih =>
    obtain ⟨hc, hcs⟩ := List.forall_mem_cons.1 hcs
    obtain ⟨htake, hdrop⟩ := ih hcs
    simp only [List.cons_append, List.takeWhile_cons, List.dropWhile_cons, hc, Bool.not_false,
      if_true, htake, hdrop]
    exact ⟨trivial, trivial⟩

theorem readToken_run {cs rest : List Char} (h : IsRun cs)
    (hrest : ∀ c ∈ rest.head?, isDelimiter c = true) (htag : cs = ['<'] → opensTag rest = false)
    (hat : cs = ['@'] → silences rest = false) (p : Position) :
    readToken ⟨cs ++ rest, p⟩ = .ok (.run (String.ofList cs), ⟨rest, p.afterAll cs⟩) := by
  obtain ⟨htake, hdrop⟩ := takeWhile_word h.word hrest
  obtain ⟨c, cs, rfl⟩ := List.exists_cons_of_ne_nil h.ne_nil
  have hc := h.word c List.mem_cons_self
  have hap : c ≠ '\x27' := fun hc => h.apostrophe (by rw [hc]; rfl)
  have hsil : (c = '@' && silences (cs ++ rest)) = false := by
    by_cases heq : c = '@'
    · obtain rfl : cs = [] := h.atSign (by rw [heq]; rfl)
      simpa [heq] using hat (by rw [heq])
    · simp [heq]
  have hopens : (c = '<' && opensTag (cs ++ rest)) = false := by
    by_cases heq : c = '<'
    · have hno := h.lessThan (by rw [heq]; rfl)
      cases cs with
      | nil => simpa [heq] using htag (by rw [heq])
      | cons d ds =>
        simp only [heq, decide_true, Bool.true_and]
        exact hno
    · simp [heq]
  have hne : ∀ d, isDelimiter d = true → c ≠ d := fun d hd => not_isDelimiter_ne hc hd
  simp only [readToken, List.cons_append, hne '[' (by decide), hne ']' (by decide),
    hne '(' (by decide), hne ')' (by decide), hne ',' (by decide), hne '"' (by decide),
    hne '\x7b' (by decide), hne '\x7d' (by decide), hap, if_false, hsil, hopens, Bool.false_eq_true,
    readRun]
  rw [← List.cons_append, htake, hdrop]

theorem readTag_eq {cs : List Char} (h : ∀ c ∈ cs, c ≠ '>' ∧ Text.isBlank c = false)
    (rest : List Char) (p : Position) : ∃ p', readTag (cs ++ '>' :: rest) p = .ok (cs, ⟨rest, p'⟩) := by
  induction cs generalizing p with
  | nil => exact ⟨p.after '>', by simp [readTag]⟩
  | cons c cs ih =>
    obtain ⟨⟨hne, hblank⟩, hcs⟩ := List.forall_mem_cons.1 h
    obtain ⟨p', hp⟩ := ih hcs (p.after c)
    refine ⟨p', ?_⟩
    simp only [List.cons_append, readTag, hne, if_false, hblank, Bool.false_eq_true, hp]
    rfl

theorem readToken_tag {cs rest : List Char} (h : IsTag cs) (p : Position) : ∃ p',
    readToken ⟨'<' :: (cs ++ '>' :: rest), p⟩ = .ok (.tag (String.ofList cs), ⟨rest, p'⟩) := by
  have hopens : opensTag (cs ++ '>' :: rest) = true := by
    have hopens := h.opens
    cases cs with
    | nil => cases hopens
    | cons c cs => exact hopens
  obtain ⟨p', hp⟩ := readTag_eq h.inner rest (p.after '<')
  refine ⟨p', ?_⟩
  simp only [readToken, Char.reduceEq, if_false, decide_false, Bool.false_and, Bool.false_eq_true,
    decide_true, Bool.true_and, hopens, if_true]
  have hnext : (Cursor.skip 1 ⟨'<' :: (cs ++ '>' :: rest), p⟩).position = p.after '<' := rfl
  rw [hnext, hp]
  rfl

theorem readText_quotedChar {c : Char} (h : Text.isFaithful c = true) (rest : List Char)
    (p : Position) :
    ∃ p', readText (Text.quotedChar c ++ rest) p = Found.push c (readText rest p') := by
  simp only [Text.isFaithful, Bool.and_eq_true, decide_eq_true_eq] at h
  obtain ⟨⟨⟨hcaret, hreturn⟩, hzero⟩, hcode⟩ := h
  -- the four characters that are written behind a backslash
  have hescaped : ∀ d, unescape d = c →
      ∃ p', readText (['\\', d] ++ rest) p = Found.push c (readText rest p') := by
    rintro d rfl
    exact ⟨_, by simp [readText, isEscape]; rfl⟩
  unfold Text.quotedChar at hcode ⊢
  rw [if_neg hzero] at hcode ⊢
  by_cases htab : c = '\t'
  · rw [if_pos htab]
    exact hescaped 't' htab.symm
  rw [if_neg htab, if_neg hreturn] at hcode ⊢
  by_cases hline : c = '\n'
  · rw [if_pos hline]
    exact hescaped 'n' hline.symm
  rw [if_neg hline] at hcode ⊢
  by_cases hquote : c = '"'
  · rw [if_pos hquote]
    exact hescaped '"' hquote.symm
  rw [if_neg hquote] at hcode ⊢
  by_cases hslash : c = '\\'
  · rw [if_pos hslash]
    exact hescaped '\\' hslash.symm
  rw [if_neg hslash] at hcode ⊢
  have hshown : Text.isHidden c = false := by
    cases hhidden : Text.isHidden c with
    | false => rfl
    | true => simp [hhidden] at hcode
  have hplain : isEscape c = false := by simp [isEscape, hcaret, hslash]
  refine ⟨p.after c, ?_⟩
  rw [if_neg (by simp [hshown]), List.singleton_append, readText.eq_def]
  simp only [hquote, hline, hplain, if_false, Bool.false_eq_true]

theorem readText_quotedChars {cs : List Char} (h : ∀ c ∈ cs, Text.isFaithful c = true)
    (rest : List Char) (p : Position) :
    ∃ p', readText (Text.quotedChars cs ++ '"' :: rest) p = .ok (cs, ⟨rest, p'⟩) := by
  induction cs generalizing p with
  | nil =>
    refine ⟨p.after '"', ?_⟩
    rw [Text.quotedChars_nil, List.nil_append, readText.eq_def]
    rfl
  | cons c cs ih =>
    obtain ⟨hc, hcs⟩ := List.forall_mem_cons.1 h
    obtain ⟨p₁, h₁⟩ := readText_quotedChar hc (Text.quotedChars cs ++ '"' :: rest) p
    obtain ⟨p', hp⟩ := ih hcs p₁
    refine ⟨p', ?_⟩
    rw [Text.quotedChars_cons, List.append_assoc, h₁, hp]
    rfl

theorem readToken_text {s : String} (h : ∀ c ∈ s.toList, Text.isFaithful c = true)
    (rest : List Char) (p : Position) :
    ∃ p', readToken ⟨(Text.quoted s).toList ++ rest, p⟩ = .ok (.text s, ⟨rest, p'⟩) := by
  obtain ⟨p', hp⟩ := readText_quotedChars h rest (p.after '"')
  refine ⟨p', ?_⟩
  rw [Text.toList_quoted, List.cons_append, List.append_assoc, List.singleton_append]
  simp only [readToken, Char.reduceEq, if_false, if_true]
  have hnext : ∀ cs, (Cursor.skip 1 ⟨'"' :: cs, p⟩).position = p.after '"' := fun _ => rfl
  rw [hnext, hp]
  simp [Except.map]

/-! ### Tokens in a text -/

/-- What stands before a token: nothing, or a blank. -/
def gap (joined : Bool) : List Char := if joined then [] else [' ']

/-- The next token of a text and what comes after it, wherever the text stands. -/
def Lexes (cs : List Char) (joined : Bool) (t : Token) (rest : List Char) : Prop :=
  rest.length < cs.length ∧
    ∀ p, ∃ p' p'', nextToken ⟨cs, p⟩ = .ok (⟨t, p', joined⟩, ⟨rest, p''⟩)

theorem skipTrivia_of_token {c : Char} (hblank : Text.isBlank c = false) (hcomment : c ≠ ';')
    (cs : List Char) (p : Position) : skipTrivia false (c :: cs) p = ⟨c :: cs, p⟩ := by
  simp [skipTrivia, hblank, hcomment]

theorem Lexes.of_readToken {c : Char} {cs rest : List Char} {t : Token}
    (hblank : Text.isBlank c = false) (hcomment : c ≠ ';') (hrest : rest.length ≤ cs.length)
    (h : ∀ p, ∃ p', readToken ⟨c :: cs, p⟩ = .ok (t, ⟨rest, p'⟩)) (joined : Bool) :
    Lexes (gap joined ++ c :: cs) joined t rest := by
  cases joined with
  | true =>
    refine ⟨Nat.lt_succ_of_le hrest, fun p => ?_⟩
    obtain ⟨p', hp⟩ := h p
    refine ⟨p, p', ?_⟩
    simp only [nextToken, gap, if_true, List.nil_append, skipTrivia_of_token hblank hcomment, hp]
    simp [Except.map]
  | false =>
    refine ⟨Nat.lt_succ_of_lt (Nat.lt_succ_of_le hrest), fun p => ?_⟩
    obtain ⟨p', hp⟩ := h (p.after ' ')
    refine ⟨p.after ' ', p', ?_⟩
    have hskip : skipTrivia false (' ' :: c :: cs) p = ⟨c :: cs, p.after ' '⟩ := by
      rw [← skipTrivia_of_token hblank hcomment]
      simp [skipTrivia, Text.isBlank_space]
    simp only [nextToken, gap, Bool.false_eq_true, if_false, List.singleton_append, hskip, hp]
    simp [Except.map, Position.after_ne]

section

variable {cs rest : List Char} (joined : Bool)

theorem lexes_run (h : IsRun cs) (hrest : ∀ c ∈ rest.head?, isDelimiter c = true)
    (htag : opensTag rest = false) (hat : cs = ['@'] → silences rest = false) :
    Lexes (gap joined ++ (cs ++ rest)) joined (.run (String.ofList cs)) rest := by
  have hread : ∀ p, ∃ p', readToken ⟨cs ++ rest, p⟩ = .ok (.run (String.ofList cs), ⟨rest, p'⟩) :=
    fun p => ⟨_, readToken_run h hrest (fun _ => htag) hat p⟩
  obtain ⟨c, ds, rfl⟩ := List.exists_cons_of_ne_nil h.ne_nil
  have hc := h.word c List.mem_cons_self
  simp only [isDelimiter, Bool.or_eq_false_iff] at hc
  refine .of_readToken hc.1 ?_ (by simp) hread joined
  rintro rfl
  exact Bool.noConfusion hc.2

theorem lexes_tag (h : IsTag cs) :
    Lexes (gap joined ++ '<' :: (cs ++ '>' :: rest)) joined (.tag (String.ofList cs)) rest :=
  .of_readToken (by decide) (by decide) (by simp; omega) (readToken_tag h) joined

theorem lexes_text {s : String} (h : ∀ c ∈ s.toList, Text.isFaithful c = true) :
    Lexes (gap joined ++ ((Text.quoted s).toList ++ rest)) joined (.text s) rest := by
  have hread := readToken_text h rest
  rw [Text.toList_quoted, List.cons_append] at hread ⊢
  exact .of_readToken (by decide) (by decide) (by simp; omega) hread joined

theorem lexes_opening (bracket : Bracket) :
    Lexes (gap joined ++ (bracket.openText.toList ++ rest)) joined (.opening bracket) rest := by
  cases bracket <;> exact .of_readToken (by decide) (by decide) (Nat.le_refl _) (fun p => ⟨_, rfl⟩) joined

theorem lexes_closing (bracket : Bracket) :
    Lexes (bracket.closeText.toList ++ rest) true (.closing bracket) rest := by
  cases bracket <;> exact .of_readToken (by decide) (by decide) (Nat.le_refl _) (fun p => ⟨_, rfl⟩) true

theorem lexes_comma : Lexes (gap joined ++ ',' :: rest) joined .comma rest :=
  .of_readToken (by decide) (by decide) (Nat.le_refl _) (fun p => ⟨_, rfl⟩) joined

theorem lexes_apostrophe : Lexes (gap joined ++ '\x27' :: rest) joined .apostrophe rest :=
  .of_readToken (by decide) (by decide) (Nat.le_refl _) (fun p => ⟨_, rfl⟩) joined

theorem lexes_atSign (h : silences rest = true) :
    Lexes (gap joined ++ '@' :: rest) joined .atSign rest := by
  refine .of_readToken (by decide) (by decide) (Nat.le_refl _) (fun p => ⟨p.after '@', ?_⟩) joined
  simp [readToken, h]
  rfl

end

/-! ### What the lexer finds -/

theorem except_map_eq_ok {ε α β : Type} {x : Except ε α} {f : α → β} {b : β} :
    x.map f = .ok b ↔ ∃ a, x = .ok a ∧ f a = b := by
  cases x with
  | error e => simp [Except.map]
  | ok a => simp [Except.map]

def Token.Formed : Token → Prop
  | .run s => IsRun s.toList
  | .tag s => IsTag s.toList
  | _ => True

/-- Whether a token can begin a unit that an at sign silences. -/
def Token.MayBeSilenced : Token → Prop
  | .text _ | .comma => False
  | _ => True

theorem readTag_inner {cs ds : List Char} {p : Position} {k : Cursor}
    (h : readTag cs p = .ok (ds, k)) :
    (∀ c ∈ ds, c ≠ '>' ∧ Text.isBlank c = false) ∧ (opensTag cs = true → opensTag ds = true) := by
  induction cs generalizing ds p k with
  | nil => cases h
  | cons c cs ih =>
    simp only [readTag] at h
    split at h
    · rename_i hc
      cases h
      refine ⟨by simp, fun hopens => ?_⟩
      subst hc
      have hno : (Text.isAlphabetic '>' || decide ('>' = '.')) = false := by decide
      exact absurd (hno.symm.trans hopens) (by decide)
    · rename_i hc
      split at h
      · cases h
      · rename_i hblank
        cases hrest : readTag cs (p.after c) with
        | error e =>
          rw [hrest] at h
          cases h
        | ok r =>
          rw [hrest] at h
          cases h
          obtain ⟨hall, -⟩ := ih hrest
          exact ⟨List.forall_mem_cons.2 ⟨⟨hc, by simpa using hblank⟩, hall⟩, id⟩

theorem isDelimiter_of_silences {c : Char} {cs : List Char} (h : silences (c :: cs) = true) :
    isDelimiter c = false ∨ c = '(' ∨ c = '[' := by
  simpa [silences, or_assoc] using h

theorem readRun_isRun {c : Char} {cs : List Char} {p : Position} (hc : isDelimiter c = false)
    (hap : c ≠ '\x27') (hat : c = '@' → silences cs = false) (htag : c = '<' → opensTag cs = false) :
    IsRun (readRun ⟨c :: cs, p⟩).1 := by
  have hrun : (readRun ⟨c :: cs, p⟩).1 = c :: cs.takeWhile fun ch => !isDelimiter ch := by
    simp [readRun, hc]
  rw [hrun]
  refine ⟨by simp, ?_, by simpa using hap, fun h => ?_, fun h => ?_⟩
  · refine List.forall_mem_cons.2 ⟨hc, fun d hd => ?_⟩
    simpa using List.all_eq_true.1 List.all_takeWhile d hd
  · have hsil := hat (by simpa using h)
    cases cs with
    | nil => rfl
    | cons d ds =>
      simp only [silences, Bool.or_eq_false_iff, Bool.not_eq_false'] at hsil
      simp [hsil.1.1]
  · have hopens := htag (by simpa using h)
    cases cs with
    | nil => rfl
    | cons d ds =>
      simp only [List.tail_cons, List.takeWhile_cons]
      split
      · exact hopens
      · rfl

/-- The tokens of one character, whatever follows. -/
def marks : List (Char × Token) :=
  [('[', .opening .square), (']', .closing .square), ('(', .opening .round), (')', .closing .round),
    (',', .comma), ('\x27', .apostrophe)]

/-- What is read where a token begins with `c` before `cs`. -/
inductive Begins (c : Char) (cs : List Char) (p : Position) : Except ScanError (Token × Cursor) → Prop
  | mark {t : Token} (ht : (c, t) ∈ marks) : Begins c cs p (.ok (t, ⟨cs, p.after c⟩))
  | text (hc : c = '"') : Begins c cs p ((readText cs (p.after c)).token .text)
  | braced (hc : c = '\x7b') : Begins c cs p ((readBraced 0 cs (p.after c)).token .text)
  | stray (hc : c = '\x7d') : Begins c cs p (.error ⟨.unexpectedBrace, p⟩)
  | atSign (hc : c = '@') (hcs : silences cs = true) :
    Begins c cs p (.ok (.atSign, ⟨cs, p.after c⟩))
  | tag (hc : c = '<') (hcs : opensTag cs = true) :
    Begins c cs p ((readTag cs (p.after c)).token .tag)
  | run (hc : isDelimiter c = false) (hap : c ≠ '\x27') (hat : c = '@' → silences cs = false)
    (htag : c = '<' → opensTag cs = false) :
    Begins c cs p
      (.ok (.run (String.ofList (readRun ⟨c :: cs, p⟩).1), (readRun ⟨c :: cs, p⟩).2))

/-- The tests of the lexer in their order; what fails all of them begins a run. -/
theorem readToken_begins {c : Char} {cs : List Char} {p : Position}
    (hblank : Text.isBlank c = false) (hcomment : c ≠ ';') :
    Begins c cs p (readToken ⟨c :: cs, p⟩) := by
  rw [readToken_cons]
  by_cases hopen : c = '['
  · rw [if_pos hopen]
    exact .mark (by simp [marks, hopen])
  rw [if_neg hopen]
  by_cases hclose : c = ']'
  · rw [if_pos hclose]
    exact .mark (by simp [marks, hclose])
  rw [if_neg hclose]
  by_cases hopen' : c = '('
  · rw [if_pos hopen']
    exact .mark (by simp [marks, hopen'])
  rw [if_neg hopen']
  by_cases hclose' : c = ')'
  · rw [if_pos hclose']
    exact .mark (by simp [marks, hclose'])
  rw [if_neg hclose']
  by_cases hcomma : c = ','
  · rw [if_pos hcomma]
    exact .mark (by simp [marks, hcomma])
  rw [if_neg hcomma]
  by_cases hquote : c = '"'
  · rw [if_pos hquote]
    exact .text hquote
  rw [if_neg hquote]
  by_cases hbrace : c = '\x7b'
  · rw [if_pos hbrace]
    exact .braced hbrace
  rw [if_neg hbrace]
  by_cases hbrace' : c = '\x7d'
  · rw [if_pos hbrace']
    exact .stray hbrace'
  rw [if_neg hbrace']
  by_cases hap : c = '\x27'
  · rw [if_pos hap]
    exact .mark (by simp [marks, hap])
  rw [if_neg hap]
  by_cases hat : (c = '@' && silences cs) = true
  · rw [if_pos hat]
    rw [Bool.and_eq_true, decide_eq_true_iff] at hat
    exact .atSign hat.1 hat.2
  rw [if_neg hat]
  by_cases htag : (c = '<' && opensTag cs) = true
  · rw [if_pos htag]
    rw [Bool.and_eq_true, decide_eq_true_iff] at htag
    exact .tag htag.1 htag.2
  rw [if_neg htag]
  have hc : isDelimiter c = false := by
    simp [isDelimiter, hblank, hcomment, hopen, hclose, hopen', hclose', hcomma, hquote, hbrace,
      hbrace']
  exact .run hc hap (fun heq => by simpa [heq] using hat) (fun heq => by simpa [heq] using htag)

/-- What is read where a token begins is formed, and an at sign is read only before what it can
silence. -/
theorem readToken_formed {c : Char} {cs : List Char} {p : Position} {t : Token} {k : Cursor}
    (hblank : Text.isBlank c = false) (hcomment : c ≠ ';')
    (h : readToken ⟨c :: cs, p⟩ = .ok (t, k)) :
    t.Formed ∧ (t = .atSign → silences k.rest = true) ∧
      (isDelimiter c = false ∨ c = '(' ∨ c = '[' → t.MayBeSilenced) := by
  have hloud : ∀ {d : Char}, isDelimiter d = true → d ≠ '(' → d ≠ '[' → c = d →
      ¬(isDelimiter c = false ∨ c = '(' ∨ c = '[') := by
    rintro d hd hround hsquare rfl (hc | hc | hc)
    · rw [hd] at hc
      cases hc
    · exact hround hc
    · exact hsquare hc
  have hbegins : Begins c cs p (readToken ⟨c :: cs, p⟩) := readToken_begins hblank hcomment
  rw [h] at hbegins
  generalize hread : Except.ok (t, k) = read at hbegins
  cases hbegins with
  | mark ht =>
    cases hread
    simp only [marks, List.mem_cons, Prod.mk.injEq, List.not_mem_nil, or_false] at ht
    rcases ht with ⟨-, rfl⟩ | ⟨-, rfl⟩ | ⟨-, rfl⟩ | ⟨-, rfl⟩ | ⟨hcomma, rfl⟩ | ⟨-, rfl⟩
    case inr.inr.inr.inr.inl =>
      exact ⟨trivial, by simp, fun hs =>
        absurd hs (hloud (by decide) (by decide) (by decide) hcomma)⟩
    all_goals exact ⟨trivial, by simp, fun _ => trivial⟩
  | text hc =>
    obtain ⟨r, -, hr⟩ := except_map_eq_ok.1 hread.symm
    cases hr
    exact ⟨trivial, by simp, fun hs => absurd hs (hloud (by decide) (by decide) (by decide) hc)⟩
  | braced hc =>
    obtain ⟨r, -, hr⟩ := except_map_eq_ok.1 hread.symm
    cases hr
    exact ⟨trivial, by simp, fun hs => absurd hs (hloud (by decide) (by decide) (by decide) hc)⟩
  | stray hc => cases hread
  | atSign hc hcs =>
    cases hread
    exact ⟨trivial, fun _ => hcs, fun _ => trivial⟩
  | tag hc hcs =>
    obtain ⟨r, hr, ht⟩ := except_map_eq_ok.1 hread.symm
    cases ht
    obtain ⟨hinner, hopens⟩ := readTag_inner hr
    exact ⟨⟨by simpa using hopens hcs, by simpa using hinner⟩, by simp, fun _ => trivial⟩
  | run hc hap hat htag =>
    cases hread
    refine ⟨?_, by simp, fun _ => trivial⟩
    rw [Token.Formed, String.toList_ofList]
    exact readRun_isRun hc hap hat htag

theorem skipTrivia_head {inComment : Bool} {cs : List Char} {p : Position} {c : Char}
    {rest : List Char} (h : (skipTrivia inComment cs p).rest = c :: rest) :
    Text.isBlank c = false ∧ c ≠ ';' := by
  induction cs generalizing inComment p with
  | nil => cases h
  | cons d ds ih =>
    simp only [skipTrivia] at h
    split at h
    · exact ih h
    · split at h
      · exact ih h
      · rename_i hblank
        split at h
        · exact ih h
        · rename_i hcomment
          cases h
          exact ⟨by simpa using hblank, hcomment⟩

/-- Tokens as the lexer finds them; `silent` says that an at sign stands before them. -/
def Follows (silent : Bool) : List Spanned → Prop
  | [] => True
  | t :: ts =>
    t.token.Formed ∧ (silent = true → t.token.MayBeSilenced) ∧
      Follows (decide (t.token = .atSign)) ts

theorem nextToken_formed {c k : Cursor} {t : Spanned} (h : nextToken c = .ok (t, k)) :
    t.token.Formed ∧ (t.token = .atSign → silences k.rest = true) ∧
      (silences c.rest = true → t.token.MayBeSilenced) := by
  obtain ⟨⟨token, behind⟩, hr, ht⟩ := except_map_eq_ok.1 h
  cases ht
  cases hrest : (skipTrivia false c.rest c.position).rest with
  | nil =>
    simp only [readToken, hrest] at hr
    cases hr
    exact ⟨trivial, by simp, fun _ => trivial⟩
  | cons d ds =>
    obtain ⟨hblank, hcomment⟩ := skipTrivia_head hrest
    have hcursor : skipTrivia false c.rest c.position =
        ⟨d :: ds, (skipTrivia false c.rest c.position).position⟩ := by rw [← hrest]
    rw [hcursor] at hr
    obtain ⟨hformed, hat, hsilenced⟩ := readToken_formed hblank hcomment hr
    refine ⟨hformed, hat, fun hs => hsilenced ?_⟩
    -- nothing is skipped before what an at sign silences
    cases hc : c.rest with
    | nil =>
      rw [hc] at hs
      cases hs
    | cons e es =>
      rw [hc] at hs hrest
      have he := isDelimiter_of_silences hs
      have hstart : Text.isBlank e = false ∧ e ≠ ';' := by
        rcases he with he | rfl | rfl
        · simp only [isDelimiter, Bool.or_eq_false_iff] at he
          exact ⟨he.1, fun h => by subst h; exact Bool.noConfusion he.2⟩
        · decide
        · decide
      rw [skipTrivia_of_token hstart.1 hstart.2] at hrest
      cases hrest
      exact he

theorem lexFrom_follows {fuel : Nat} {c : Cursor} {silent : Bool}
    (hsilent : silent = true → silences c.rest = true) :
    Follows silent (lexFrom fuel c).tokens := by
  induction fuel generalizing c silent with
  | zero => trivial
  | succ fuel ih =>
    simp only [lexFrom]
    split
    · trivial
    · rename_i t behind hnext
      obtain ⟨hformed, hat, hsilenced⟩ := nextToken_formed hnext
      have hfirst : silent = true → t.token.MayBeSilenced := fun hs => hsilenced (hsilent hs)
      split
      · exact ⟨hformed, hfirst, trivial⟩
      · exact ⟨hformed, hfirst, ih fun hs => hat (of_decide_eq_true hs)⟩

theorem tokenize_follows {s : String} {tokens : List Spanned} (h : tokenize s = .ok tokens) :
    Follows false tokens := by
  simp only [tokenize] at h
  split at h
  · cases h
  · cases h
    exact lexFrom_follows (by simp)

end Source

end Homoicon
