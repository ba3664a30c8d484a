import Homoicon.Proofs.Lexemes

/-!
# How text splits into tokens

The lexer goes through a text with fuel and by looking ahead; `Splits` says what it finds without
either: blanks and comments, the characters of a token, and the same again.  A token is read from
its own characters alone, and what comes behind them decides only where a run ends and whether an
at sign stands for itself.
-/

namespace Homoicon.Source

/-! ### Readers, one character after the other -/

section

variable {c d : Char} {cs : List Char} {p : Position} {depth : Nat}

theorem readText_escape (h : isEscape c = true) :
    readText (c :: d :: cs) p = Found.push (unescape d) (readText cs ((p.after c).after d)) := by
  have hquote : c ≠ '"' := by
    rintro rfl
    cases h
  have hline : c ≠ '\n' := by
    rintro rfl
    cases h
  rw [readText.eq_def]
  simp only [hquote, hline, h, if_false, if_true]

theorem readText_plain (hquote : c ≠ '"') (hline : c ≠ '\n') (hescape : ¬isEscape c = true) :
    readText (c :: cs) p = Found.push c (readText cs (p.after c)) := by
  rw [readText.eq_def]
  simp only [hquote, hline, hescape, if_false, Bool.false_eq_true]

theorem readBraced_open :
    readBraced depth ('\x7b' :: cs) p =
      Found.push '\x7b' (readBraced (depth + 1) cs (p.after '\x7b')) := by
  rw [readBraced.eq_def]
  simp only [if_true]

theorem readBraced_close (h : ¬depth = 0) :
    readBraced depth ('\x7d' :: cs) p =
      Found.push '\x7d' (readBraced (depth - 1) cs (p.after '\x7d')) := by
  rw [readBraced.eq_def]
  simp only [Char.reduceEq, h, if_false, if_true]

theorem readBraced_escape :
    readBraced depth ('^' :: d :: cs) p =
      Found.push d (readBraced depth cs ((p.after '^').after d)) := by
  rw [readBraced.eq_def]
  simp only [Char.reduceEq, if_false, if_true]

theorem readBraced_plain (hopen : c ≠ '\x7b') (hclose : c ≠ '\x7d') (hescape : c ≠ '^') :
    readBraced depth (c :: cs) p = Found.push c (readBraced depth cs (p.after c)) := by
  rw [readBraced.eq_def]
  simp only [hopen, hclose, hescape, if_false]

theorem readTag_plain (hclose : c ≠ '>') (hblank : ¬Text.isBlank c = true) :
    readTag (c :: cs) p = Found.push c (readTag cs (p.after c)) := by
  simp only [readTag, hclose, hblank, if_false, Bool.false_eq_true]

end

/-! ### The characters of one token -/

/-- What a reader found in `cs` stands in the characters that it went through, whatever comes
behind them. -/
def Found.Within (read : List Char → Position → Found) (cs : List Char) (f : Found) : Prop :=
  ∀ ds k, f = .ok (ds, k) → ∃ es, cs = es ++ k.rest ∧
    ∀ rest p, read (es ++ rest) p = .ok (ds, ⟨rest, p.afterAll es⟩)

namespace Found.Within

variable {read inner : List Char → Position → Found} {c d : Char} {cs : List Char} {f : Found}

theorem error {e : ScanError} : Within read cs (.error e) := nofun

theorem found {p : Position} (h : ∀ rest p, read (c :: rest) p = .ok ([], ⟨rest, p.after c⟩)) :
    Within read (c :: cs) (.ok ([], ⟨cs, p⟩)) := by
  rintro _ _ ⟨⟩
  exact ⟨[c], rfl, h⟩

theorem push (es : List Char) (h : Within inner cs f)
    (hread : ∀ rest p, read (es ++ rest) p = Found.push d (inner rest (p.afterAll es))) :
    Within read (es ++ cs) (f.push d) := by
  intro ds k hf
  obtain ⟨⟨ds, k⟩, rfl, hpush⟩ := except_map_eq_ok.1 hf
  cases hpush
  obtain ⟨es', hcs, hes'⟩ := h ds k rfl
  refine ⟨es ++ es', by rw [hcs, List.append_assoc], fun rest p => ?_⟩
  rw [List.append_assoc, hread, hes', Position.afterAll_append]
  rfl

end Found.Within

theorem readText_within (cs : List Char) (p : Position) :
    Found.Within readText cs (readText cs p) := by
  fun_induction readText cs p with
  | case1 | case3 | case4 => exact .error
  | case2 cs p => exact .found fun rest p => by rw [readText.eq_def]; rfl
  | case5 c p hquote hline hescape d ds ih =>
    exact .push [c, d] ih fun _ _ => readText_escape hescape
  | case6 c cs p hquote hline hescape ih =>
    exact .push [c] ih fun _ _ => readText_plain hquote hline hescape

theorem readBraced_within (depth : Nat) (cs : List Char) (p : Position) :
    Found.Within (readBraced depth) cs (readBraced depth cs p) := by
  fun_induction readBraced depth cs p with
  | case1 | case5 => exact .error
  | case2 depth cs p ih => exact .push ['\x7b'] ih fun _ _ => readBraced_open
  | case3 cs p hopen => exact .found fun rest p => by rw [readBraced.eq_def]; rfl
  | case4 depth cs p hdepth hopen ih =>
    exact .push ['\x7d'] ih fun _ _ => readBraced_close hdepth
  | case6 depth p d ds hopen hclose ih =>
    exact .push ['^', d] ih fun _ _ => readBraced_escape
  | case7 depth c cs p hopen hclose hescape ih =>
    exact .push [c] ih fun _ _ => readBraced_plain hopen hclose hescape

theorem readTag_within (cs : List Char) (p : Position) :
    Found.Within readTag cs (readTag cs p) := by
  fun_induction readTag cs p with
  | case1 | case3 => exact .error
  | case2 cs p => exact .found fun rest p => rfl
  | case4 c cs p hclose hblank ih => exact .push [c] ih fun _ _ => readTag_plain hclose hblank

/-- What may come behind the characters `cs` of a token.  A run ends at a delimiter, and a run of
one sign where that sign does not begin another token. -/
def Token.Ends (t : Token) (cs rest : List Char) : Prop :=
  match t with
  | .run _ => (∀ c ∈ rest.head?, isDelimiter c = true) ∧ (cs = ['<'] → opensTag rest = false) ∧
      (cs = ['@'] → silences rest = false)
  | .atSign => silences rest = true
  | _ => True

/-- `cs` are the characters of the token `t`, with `rest` behind them. -/
structure Lexeme (t : Token) (cs rest : List Char) : Prop where
  notEnd : t ≠ .endOfInput
  ne_nil : cs ≠ []
  begins : ∀ c ∈ cs.head?, Text.isBlank c = false ∧ c ≠ ';'
  ends : t.Ends cs rest
  atSign : t = .atSign → cs = ['@']
  reads : ∀ rest, t.Ends cs rest → ∀ p,
    readToken ⟨cs ++ rest, p⟩ = .ok (t, ⟨rest, p.afterAll cs⟩)

theorem Lexeme.before {t : Token} {cs rest rest' : List Char} (h : Lexeme t cs rest)
    (hends : t.Ends cs rest') : Lexeme t cs rest' :=
  { h with ends := hends }

theorem Found.Within.token {read : List Char → Position → Found} {c : Char} {cs : List Char}
    {p : Position} {t : Token} {k : Cursor} (make : String → Token)
    (h : Within read cs (read cs (p.after c))) (hnil : ∀ p ds k, read [] p ≠ .ok (ds, k))
    (hread : ∀ es ds p, es ≠ [] → cs.head? = es.head? →
      readToken ⟨c :: (es ++ ds), p⟩ = (read (es ++ ds) (p.after c)).token make)
    (ht : (read cs (p.after c)).token make = .ok (t, k)) :
    ∃ s es, t = make s ∧ cs = es ++ k.rest ∧
      ∀ rest p, readToken ⟨c :: es ++ rest, p⟩ = .ok (t, ⟨rest, p.afterAll (c :: es)⟩) := by
  obtain ⟨⟨ds, k'⟩, hfound, heq⟩ := except_map_eq_ok.1 ht
  cases heq
  obtain ⟨es, hcs, hes⟩ := h ds _ hfound
  have hne : es ≠ [] := by
    rintro rfl
    exact hnil p ds _ (hes [] p)
  have hhead : cs.head? = es.head? := by
    obtain ⟨d, es, rfl⟩ := List.exists_cons_of_ne_nil hne
    rw [hcs]
    rfl
  refine ⟨String.ofList ds, es, rfl, hcs, fun rest p => ?_⟩
  rw [List.cons_append, hread es rest p hne hhead, hes]
  rfl

theorem opensTag_congr {cs ds : List Char} (h : cs.head? = ds.head?) : opensTag cs = opensTag ds := by
  cases cs <;> cases ds <;> simp_all [opensTag]

theorem lexeme_run {c : Char} {cs : List Char} (hblank : Text.isBlank c = false) (hcomment : c ≠ ';')
    (hc : isDelimiter c = false) (hap : c ≠ '\x27') (hat : c = '@' → silences cs = false)
    (htag : c = '<' → opensTag cs = false) :
    Lexeme (.run (String.ofList (c :: cs.takeWhile fun ch => !isDelimiter ch)))
      (c :: cs.takeWhile fun ch => !isDelimiter ch) (cs.dropWhile fun ch => !isDelimiter ch) := by
  have hrun : (readRun ⟨c :: cs, {}⟩).1 = c :: cs.takeWhile fun ch => !isDelimiter ch := by
    simp [readRun, hc]
  have hisRun := readRun_isRun (p := {}) hc hap hat htag
  rw [hrun] at hisRun
  -- a run of one character is followed by all that stood behind that character
  have halone : ∀ d, (c :: cs.takeWhile fun ch => !isDelimiter ch) = [d] →
      c = d ∧ (cs.dropWhile fun ch => !isDelimiter ch) = cs := by
    intro d hone
    obtain ⟨rfl, hnil⟩ := List.cons_eq_cons.1 hone
    have hsplit := List.takeWhile_append_dropWhile (p := fun ch => !isDelimiter ch) (l := cs)
    rw [hnil, List.nil_append] at hsplit
    exact ⟨rfl, hsplit⟩
  refine ⟨by simp, by simp, by simp [hblank, hcomment], ⟨fun d hd => ?_, fun hone => ?_, fun hone => ?_⟩,
    by simp, ?_⟩
  · have hhead := List.head?_dropWhile_not (fun ch => !isDelimiter ch) cs
    rw [Option.mem_def.1 hd] at hhead
    simpa using hhead
  · obtain ⟨hone, hrest⟩ := halone '<' hone
    rw [hrest]
    exact htag hone
  · obtain ⟨hone, hrest⟩ := halone '@' hone
    rw [hrest]
    exact hat hone
  · rintro rest ⟨hdelimiter, hopens, hsilences⟩ p
    exact readToken_run hisRun hdelimiter hopens hsilences p

theorem readToken_lexeme {c : Char} {cs : List Char} {p : Position} {t : Token} {k : Cursor}
    (hblank : Text.isBlank c = false) (hcomment : c ≠ ';')
    (h : readToken ⟨c :: cs, p⟩ = .ok (t, k)) :
    ∃ es, cs = es ++ k.rest ∧ Lexeme t (c :: es) k.rest := by
  have hlexeme : ∀ es, t ≠ .endOfInput → t.Ends (c :: es) k.rest → (t = .atSign → c :: es = ['@']) →
      (∀ rest, t.Ends (c :: es) rest → ∀ p,
        readToken ⟨c :: es ++ rest, p⟩ = .ok (t, ⟨rest, p.afterAll (c :: es)⟩)) →
      Lexeme t (c :: es) k.rest := fun es hnot hends hat hreads =>
    ⟨hnot, by simp, by simp [hblank, hcomment], hends, hat, hreads⟩
  have hbegins : Begins c cs p (readToken ⟨c :: cs, p⟩) := readToken_begins hblank hcomment
  rw [h] at hbegins
  generalize hread : Except.ok (t, k) = read at hbegins
  cases hbegins with
  | mark ht =>
    cases hread
    refine ⟨[], rfl, ?_⟩
    simp only [marks, List.mem_cons, Prod.mk.injEq, List.not_mem_nil, or_false] at ht
    rcases ht with ⟨rfl, rfl⟩ | ⟨rfl, rfl⟩ | ⟨rfl, rfl⟩ | ⟨rfl, rfl⟩ | ⟨rfl, rfl⟩ | ⟨rfl, rfl⟩
    all_goals exact hlexeme [] (by simp) trivial (by simp) fun _ _ _ => rfl
  | text hc =>
    subst hc
    obtain ⟨s, es, rfl, hcs, hreads⟩ := (readText_within cs _).token .text
      (fun _ _ _ h => by cases h) (fun _ _ _ _ _ => rfl) hread.symm
    exact ⟨es, hcs, hlexeme es (by simp) trivial (by simp) fun rest _ => hreads rest⟩
  | braced hc =>
    subst hc
    obtain ⟨s, es, rfl, hcs, hreads⟩ := (readBraced_within 0 cs _).token .text
      (fun _ _ _ h => by cases h) (fun _ _ _ _ _ => rfl) hread.symm
    exact ⟨es, hcs, hlexeme es (by simp) trivial (by simp) fun rest _ => hreads rest⟩
  | stray hc => cases hread
  | atSign hc hcs =>
    cases hread
    subst hc
    refine ⟨[], rfl, hlexeme [] (by simp) hcs (fun _ => rfl) fun rest hrest p => ?_⟩
    have hsilences : silences rest = true := hrest
    simp [readToken_cons, hsilences]
  | tag hc hcs =>
    subst hc
    -- the character behind the sign tells a tag, whatever comes after it
    have hopens : ∀ es ds p, es ≠ [] → cs.head? = es.head? →
        readToken ⟨'<' :: (es ++ ds), p⟩ = (readTag (es ++ ds) (p.after '<')).token .tag := by
      intro es ds p hne hhead
      have hsame : (es ++ ds).head? = cs.head? := by
        obtain ⟨d, es, rfl⟩ := List.exists_cons_of_ne_nil hne
        rw [hhead]
        rfl
      simp [readToken_cons, opensTag_congr hsame, hcs]
    obtain ⟨s, es, rfl, hes, hreads⟩ := (readTag_within cs _).token .tag
      (fun _ _ _ h => by cases h) hopens hread.symm
    exact ⟨es, hes, hlexeme es (by simp) trivial (by simp) fun rest _ => hreads rest⟩
  | run hc hap hat htag =>
    cases hread
    have hrun : (readRun ⟨c :: cs, p⟩).1 = c :: cs.takeWhile fun ch => !isDelimiter ch := by
      simp [readRun, hc]
    have hrest : (readRun ⟨c :: cs, p⟩).2.rest = cs.dropWhile fun ch => !isDelimiter ch := by
      simp [readRun, hc]
    rw [hrun, hrest]
    exact ⟨_, List.takeWhile_append_dropWhile.symm, lexeme_run hblank hcomment hc hap hat htag⟩

/-! ### Blanks and comments -/

/-- Blanks and comments.  A comment ends with its line; `atEnd` says that the text ends behind them,
where a comment may still be open. -/
inductive Trivia (atEnd : Bool) : List Char → Prop
  | nil : Trivia atEnd []
  | blank {c : Char} {cs : List Char} (hc : Text.isBlank c = true) (h : Trivia atEnd cs) :
    Trivia atEnd (c :: cs)
  | comment {body cs : List Char} (hbody : '\n' ∉ body) (h : Trivia atEnd cs) :
    Trivia atEnd (';' :: (body ++ '\n' :: cs))
  | openComment {body : List Char} (hend : atEnd = true) (hbody : '\n' ∉ body) :
    Trivia atEnd (';' :: body)

theorem skipTrivia_comment {body : List Char} (h : '\n' ∉ body) (rest : List Char) (p : Position) :
    skipTrivia true (body ++ rest) p = skipTrivia true rest (p.afterAll body) := by
  induction body generalizing p with
  | nil => rfl
  | cons c body ih =>
    obtain ⟨hc, hbody⟩ := List.ne_and_not_mem_of_not_mem_cons h
    have hopen : (c != '\n') = true := by simpa using Ne.symm hc
    simp only [List.cons_append, skipTrivia, if_true, hopen, ih hbody, Position.afterAll_cons]

theorem skipTrivia_blank {c : Char} (h : Text.isBlank c = true) (cs : List Char) (p : Position) :
    skipTrivia false (c :: cs) p = skipTrivia false cs (p.after c) := by
  simp [skipTrivia, h]

namespace Trivia

variable {atEnd : Bool} {gap : List Char}

theorem skip (h : Trivia false gap) (rest : List Char) (p : Position) :
    skipTrivia false (gap ++ rest) p = skipTrivia false rest (p.afterAll gap) := by
  induction h generalizing p with
  | nil => rfl
  | blank hc _ ih => rw [List.cons_append, skipTrivia_blank hc, ih, Position.afterAll_cons]
  | @comment body cs hbody _ ih =>
    have hcomment : ∀ ds, skipTrivia false (';' :: ds) p = skipTrivia true ds (p.after ';') :=
      fun _ => rfl
    have hline : ∀ p, skipTrivia true ('\n' :: (cs ++ rest)) p =
        skipTrivia false (cs ++ rest) (p.after '\n') := fun _ => rfl
    rw [List.cons_append, List.append_assoc, List.cons_append, hcomment, skipTrivia_comment hbody,
      hline, ih, Position.afterAll_cons, Position.afterAll_append, Position.afterAll_cons]
  | openComment hend => cases hend

theorem endLine (h : Trivia true gap) : Trivia false (gap ++ ['\n']) := by
  induction h with
  | nil => exact .blank Text.isBlank_newline .nil
  | blank hc _ ih => exact .blank hc ih
  | comment hbody _ ih =>
    rw [List.cons_append, List.append_assoc]
    exact .comment hbody ih
  | openComment _ hbody => exact .comment hbody .nil

theorem skipLast (h : Trivia true gap) (p : Position) :
    skipTrivia false gap p = ⟨[], p.afterAll gap⟩ := by
  induction h generalizing p with
  | nil => rfl
  | blank hc _ ih => rw [skipTrivia_blank hc, ih, Position.afterAll_cons]
  | @comment body cs hbody h ih =>
    have hclosed := skip (.comment hbody .nil) cs p
    simp only [List.cons_append, List.append_assoc, List.nil_append] at hclosed
    rw [hclosed, ih, ← Position.afterAll_append]
    simp
  | @openComment body _ hbody =>
    have hcomment : skipTrivia false (';' :: body) p = skipTrivia true body (p.after ';') := rfl
    have hopen := skipTrivia_comment hbody [] (p.after ';')
    rw [List.append_nil] at hopen
    rw [hcomment, hopen, Position.afterAll_cons]
    rfl

theorem widen {c : Char} {cs : List Char} (hc : c ≠ '\n') (h : Trivia atEnd (';' :: cs)) :
    Trivia atEnd (';' :: c :: cs) := by
  cases h with
  | blank hblank => exact absurd hblank (by decide)
  | comment hbody h => exact .comment (List.not_mem_cons_of_ne_of_not_mem hc.symm hbody) h
  | openComment hend hbody =>
    exact .openComment hend (List.not_mem_cons_of_ne_of_not_mem hc.symm hbody)

end Trivia

/-- What is skipped are blanks and comments; `inComment` says that the first comment is open. -/
theorem skipTrivia_trivia (inComment : Bool) (cs : List Char) (p : Position) :
    ∃ gap, cs = gap ++ (skipTrivia inComment cs p).rest ∧
      Trivia (skipTrivia inComment cs p).rest.isEmpty (if inComment then ';' :: gap else gap) := by
  induction cs generalizing inComment p with
  | nil =>
    refine ⟨[], rfl, ?_⟩
    cases inComment with
    | false => exact .nil
    | true => exact .openComment rfl List.not_mem_nil
  | cons c cs ih =>
    cases inComment with
    | true =>
      obtain ⟨gap, hcs, htrivia⟩ := ih (c != '\n') (p.after c)
      have hskip : skipTrivia true (c :: cs) p = skipTrivia (c != '\n') cs (p.after c) := rfl
      rw [hskip]
      refine ⟨c :: gap, by rw [List.cons_append, ← hcs], ?_⟩
      by_cases hc : c = '\n'
      · subst hc
        exact .comment List.not_mem_nil htrivia
      · have hopen : (c != '\n') = true := by simpa using hc
        rw [hopen] at htrivia ⊢
        exact htrivia.widen hc
    | false =>
      by_cases hblank : Text.isBlank c = true
      · obtain ⟨gap, hcs, htrivia⟩ := ih false (p.after c)
        rw [skipTrivia_blank hblank]
        exact ⟨c :: gap, by rw [List.cons_append, ← hcs], .blank hblank htrivia⟩
      · by_cases hcomment : c = ';'
        · subst hcomment
          obtain ⟨gap, hcs, htrivia⟩ := ih true (p.after ';')
          have hskip : skipTrivia false (';' :: cs) p = skipTrivia true cs (p.after ';') := rfl
          rw [hskip]
          exact ⟨';' :: gap, by rw [List.cons_append, ← hcs], htrivia⟩
        · rw [skipTrivia_of_token (by simpa using hblank) hcomment]
          exact ⟨[], rfl, .nil⟩

/-! ### Positions -/

theorem Position.line_afterAll (p : Position) (cs : List Char) :
    (p.afterAll cs).line = p.line + cs.count '\n' := by
  induction cs generalizing p with
  | nil => rfl
  | cons c cs ih =>
    rw [Position.afterAll_cons, ih, List.count_cons]
    by_cases hc : c = '\n'
    · simp [Position.after, hc]
      omega
    · simp [Position.after, hc]

theorem Position.column_afterAll {cs : List Char} (h : '\n' ∉ cs) (p : Position) :
    (p.afterAll cs).column = p.column + cs.length := by
  induction cs generalizing p with
  | nil => rfl
  | cons c cs ih =>
    obtain ⟨hc, hcs⟩ := List.ne_and_not_mem_of_not_mem_cons h
    rw [Position.afterAll_cons, ih hcs, List.length_cons]
    simp only [Position.after, Ne.symm hc, if_false]
    omega

theorem Position.afterAll_eq_self {p : Position} {cs : List Char} : p.afterAll cs = p ↔ cs = [] := by
  constructor
  · intro h
    have hline := p.line_afterAll cs
    rw [h] at hline
    have hcount : cs.count '\n' = 0 := by omega
    have hcolumn := Position.column_afterAll (List.count_eq_zero.1 hcount) p
    rw [h] at hcolumn
    exact List.eq_nil_of_length_eq_zero (by omega)
  · rintro rfl
    rfl

theorem decide_afterAll_eq_self (p : Position) (cs : List Char) :
    decide (p.afterAll cs = p) = cs.isEmpty := by
  rw [Bool.eq_iff_iff, decide_eq_true_iff, Position.afterAll_eq_self, List.isEmpty_iff]

/-! ### Texts -/

/-- How a text that begins at `p` splits: what stands before a token, its characters, and the rest
in the same way, up to the end of the text or up to the error `fault`. -/
inductive Splits : Position → List Char → List Spanned → Option ScanError → Prop
  | last {p : Position} {cs : List Char} (h : Trivia true cs) :
    Splits p cs [⟨.endOfInput, p.afterAll cs, cs.isEmpty⟩] none
  | fault {p : Position} {gap rest : List Char} {e : ScanError} (hgap : Trivia false gap)
    (hbegins : ∀ c ∈ rest.head?, Text.isBlank c = false ∧ c ≠ ';')
    (he : readToken ⟨rest, p.afterAll gap⟩ = .error e) : Splits p (gap ++ rest) [] (some e)
  | token {p : Position} {gap cs rest : List Char} {t : Token} {ts : List Spanned}
    {fault : Option ScanError} (hgap : Trivia false gap) (h : Lexeme t cs rest)
    (hrest : Splits (p.afterAll (gap ++ cs)) rest ts fault) :
    Splits p (gap ++ (cs ++ rest)) (⟨t, p.afterAll gap, gap.isEmpty⟩ :: ts) fault

theorem skipTrivia_gap {gap rest : List Char} (hgap : Trivia false gap)
    (hbegins : ∀ c ∈ rest.head?, Text.isBlank c = false ∧ c ≠ ';') (p : Position) :
    skipTrivia false (gap ++ rest) p = ⟨rest, p.afterAll gap⟩ := by
  rw [hgap.skip]
  cases rest with
  | nil => rfl
  | cons c rest =>
    obtain ⟨hblank, hcomment⟩ := hbegins c rfl
    exact skipTrivia_of_token hblank hcomment rest _

theorem nextToken_gap {gap rest : List Char} (hgap : Trivia false gap)
    (hbegins : ∀ c ∈ rest.head?, Text.isBlank c = false ∧ c ≠ ';') (p : Position) :
    nextToken ⟨gap ++ rest, p⟩ = (readToken ⟨rest, p.afterAll gap⟩).map fun r =>
      (⟨r.1, p.afterAll gap, gap.isEmpty⟩, r.2) := by
  simp only [nextToken, skipTrivia_gap hgap hbegins, decide_afterAll_eq_self]

theorem nextToken_last {cs : List Char} (h : Trivia true cs) (p : Position) :
    nextToken ⟨cs, p⟩ =
      .ok (⟨.endOfInput, p.afterAll cs, cs.isEmpty⟩, ⟨[], p.afterAll cs⟩) := by
  simp only [nextToken, h.skipLast, decide_afterAll_eq_self]
  rfl

theorem Lexeme.head?_begins {t : Token} {cs rest : List Char} (h : Lexeme t cs rest) :
    ∀ c ∈ (cs ++ rest).head?, Text.isBlank c = false ∧ c ≠ ';' := by
  obtain ⟨d, ds, rfl⟩ := List.exists_cons_of_ne_nil h.ne_nil
  exact h.begins

theorem nextToken_lexeme {gap cs rest : List Char} {t : Token} (hgap : Trivia false gap)
    (h : Lexeme t cs rest) (p : Position) :
    nextToken ⟨gap ++ (cs ++ rest), p⟩ =
      .ok (⟨t, p.afterAll gap, gap.isEmpty⟩, ⟨rest, p.afterAll (gap ++ cs)⟩) := by
  rw [nextToken_gap hgap h.head?_begins, h.reads rest h.ends, Position.afterAll_append]
  rfl

/-- The lexer finds the tokens of a text, and with enough fuel all of them. -/
theorem Splits.lexFrom {p : Position} {cs : List Char} {ts : List Spanned} {fault : Option ScanError}
    (h : Splits p cs ts fault) {fuel : Nat} (hfuel : cs.length < fuel) :
    lexFrom fuel ⟨cs, p⟩ = ⟨ts, fault⟩ := by
  induction h generalizing fuel with
  | last h =>
    obtain ⟨fuel, rfl⟩ := Nat.exists_eq_succ_of_ne_zero (Nat.ne_zero_of_lt hfuel)
    simp only [Source.lexFrom, nextToken_last h, if_true]
  | fault hgap hbegins he =>
    obtain ⟨fuel, rfl⟩ := Nat.exists_eq_succ_of_ne_zero (Nat.ne_zero_of_lt hfuel)
    simp only [Source.lexFrom, nextToken_gap hgap hbegins, he, Except.map]
  | token hgap h _ ih =>
    obtain ⟨fuel, rfl⟩ := Nat.exists_eq_succ_of_ne_zero (Nat.ne_zero_of_lt hfuel)
    have hlength := List.length_pos_iff.2 h.ne_nil
    simp only [List.length_append] at hfuel
    simp only [Source.lexFrom, nextToken_lexeme hgap h, h.notEnd, if_false, ih (by omega : _ < fuel)]

theorem splits_lexFrom {fuel : Nat} {cs : List Char} (hfuel : cs.length < fuel) (p : Position) :
    Splits p cs (lexFrom fuel ⟨cs, p⟩).tokens (lexFrom fuel ⟨cs, p⟩).fault := by
  induction fuel generalizing cs p with
  | zero => exact absurd hfuel (Nat.not_lt_zero _)
  | succ fuel ih =>
    obtain ⟨gap, hcs, hgap⟩ := skipTrivia_trivia false cs p
    rw [if_neg Bool.false_ne_true] at hgap
    rcases hhere : skipTrivia false cs p with ⟨_ | ⟨c, rest⟩, p'⟩ <;> rw [hhere] at hcs hgap
    · rw [List.append_nil] at hcs
      subst hcs
      simp only [Source.lexFrom, nextToken_last hgap, if_true]
      exact .last hgap
    · obtain ⟨hblank, hcomment⟩ := skipTrivia_head (congrArg Cursor.rest hhere)
      have hbegins : ∀ d ∈ (c :: rest).head?, Text.isBlank d = false ∧ d ≠ ';' := by
        rintro d ⟨⟩
        exact ⟨hblank, hcomment⟩
      subst hcs
      rcases hread : readToken ⟨c :: rest, p.afterAll gap⟩ with e | ⟨t, k⟩
      · simp only [Source.lexFrom, nextToken_gap hgap hbegins, hread, Except.map]
        exact .fault hgap hbegins hread
      · obtain ⟨es, rfl, h⟩ := readToken_lexeme hblank hcomment hread
        have hnext := nextToken_lexeme hgap h p
        rw [List.cons_append] at hnext
        simp only [List.length_append, List.length_cons] at hfuel
        simp only [Source.lexFrom, hnext, h.notEnd, if_false]
        exact .token hgap h (ih (by omega) _)

theorem lexFrom_eq_iff {fuel : Nat} {cs : List Char} (hfuel : cs.length < fuel) {p : Position}
    {l : Lexed} : lexFrom fuel ⟨cs, p⟩ = l ↔ Splits p cs l.tokens l.fault := by
  constructor
  · rintro rfl
    exact splits_lexFrom hfuel p
  · intro h
    exact h.lexFrom hfuel

theorem splits_lex (s : String) : Splits {} s.toList (lex s).tokens (lex s).fault :=
  splits_lexFrom (Nat.lt_succ_self _) _

theorem Splits.lex {s : String} {ts : List Spanned} {fault : Option ScanError}
    (h : Splits {} s.toList ts fault) : lex s = ⟨ts, fault⟩ :=
  h.lexFrom (Nat.lt_succ_self _)

theorem tokenize_eq_ok_iff {s : String} {ts : List Spanned} :
    tokenize s = .ok ts ↔ Splits {} s.toList ts none := by
  constructor
  · intro h
    have hsplits := splits_lex s
    cases hfault : (Source.lex s).fault with
    | none =>
      simp only [tokenize, hfault, Except.ok.injEq] at h
      rwa [h, hfault] at hsplits
    | some e => simp only [tokenize, hfault, reduceCtorEq] at h
  · intro h
    simp only [tokenize, h.lex]

theorem tokenize_eq_error_iff {s : String} {e : ScanError} :
    tokenize s = .error e ↔ ∃ ts, Splits {} s.toList ts (some e) := by
  constructor
  · intro h
    have hsplits := splits_lex s
    cases hfault : (Source.lex s).fault with
    | none => simp only [tokenize, hfault, reduceCtorEq] at h
    | some e' =>
      simp only [tokenize, hfault, Except.error.injEq] at h
      rw [hfault, h] at hsplits
      exact ⟨_, hsplits⟩
  · rintro ⟨ts, h⟩
    simp only [tokenize, h.lex]

end Homoicon.Source
