import Homoicon.Interactive.Completeness
import Homoicon.Proofs.Lexemes
import Homoicon.Proofs.Paths
import Homoicon.Proofs.Results
import Homoicon.Proofs.Scanned

/-!
# Completeness and scanning

The check of what is open follows a text character by character; scanning takes it in two passes,
tokens first and brackets after.  They meet at the token: the lexer and the check go through the
characters of one token to the same end, and the brackets that the check keeps open behind it are
those that the builder keeps open.
-/

namespace Homoicon

open Interactive (Openness Mode)

/-! ### Following a text -/

namespace Interactive.Openness

def follow (o : Openness) (cs : List Char) : Except Source.Bracket Openness := cs.foldlM next o

variable {o o' : Openness} {c : Char} {cs ds : List Char}

@[simp] theorem follow_nil (o : Openness) : o.follow [] = .ok o := rfl

theorem follow_cons (h : o.next c = .ok o') : o.follow (c :: cs) = o'.follow cs := by
  rw [follow, List.foldlM_cons, h]
  rfl

theorem follow_append (o : Openness) (cs ds : List Char) :
    o.follow (cs ++ ds) = o.follow cs >>= fun o => o.follow ds := List.foldlM_append

theorem follow_append_of_ok (h : o.follow cs = .ok o') : o.follow (cs ++ ds) = o'.follow ds := by
  rw [follow_append, h]
  rfl

theorem follow_append_of_error {b : Source.Bracket} (h : o.follow cs = .error b) :
    o.follow (cs ++ ds) = .error b := by
  rw [follow_append, h]
  rfl

theorem next_code_of_plain {bs : List Source.Bracket}
    (h : ∀ d ∈ [';', '"', '\x7b', '[', '(', ']', ')'], c ≠ d) :
    next ⟨.code, bs⟩ c = .ok ⟨.code, bs⟩ := by
  simp only [List.forall_mem_cons] at h
  simp [next, codeChar, h]

theorem next_blank {bs : List Source.Bracket} (h : Text.isBlank c = true) :
    next ⟨.code, bs⟩ c = .ok ⟨.code, bs⟩ := by
  refine next_code_of_plain fun d hd => ?_
  have hblank : [';', '"', '\x7b', '[', '(', ']', ')'].all (fun d => !Text.isBlank d) = true := by
    decide
  rintro rfl
  simpa [h] using List.all_eq_true.1 hblank c hd

theorem follow_word {bs : List Source.Bracket} (h : ∀ c ∈ cs, Source.isDelimiter c = false) :
    follow ⟨.code, bs⟩ cs = .ok ⟨.code, bs⟩ := by
  induction cs with
  | nil => rfl
  | cons c cs ih =>
    obtain ⟨hc, hcs⟩ := List.forall_mem_cons.1 h
    have hdelimiter : [';', '"', '\x7b', '[', '(', ']', ')'].all Source.isDelimiter = true := by
      decide
    have hplain : next ⟨.code, bs⟩ c = .ok ⟨.code, bs⟩ :=
      next_code_of_plain fun d hd => Source.not_isDelimiter_ne hc (List.all_eq_true.1 hdelimiter d hd)
    rw [follow_cons hplain, ih hcs]

theorem next_text_escape {bs : List Source.Bracket} (h : Source.isEscape c = true) :
    next ⟨.text false, bs⟩ c = .ok ⟨.text true, bs⟩ := by
  simp only [Source.isEscape] at h
  simp only [next, h, if_true]

theorem next_text_plain {bs : List Source.Bracket} (hquote : c ≠ '"')
    (hescape : ¬Source.isEscape c = true) :
    next ⟨.text false, bs⟩ c = .ok ⟨.text false, bs⟩ := by
  simp only [Source.isEscape] at hescape
  simp only [next, hescape, if_false, hquote, Bool.false_eq_true]

end Interactive.Openness

namespace Source

open Interactive.Openness

/-! ### Through one token -/

/-- Blanks and comments leave the brackets alone, and behind them only an open comment can be open
that was not before, at the end of the text. -/
theorem skipTrivia_follow (bs : List Bracket) (inComment : Bool) (cs : List Char) (p : Position) :
    ∃ ds mode, cs = ds ++ (skipTrivia inComment cs p).rest ∧
      follow ⟨if inComment then .comment else .code, bs⟩ ds = .ok ⟨mode, bs⟩ ∧
      (mode = .code ∨ mode = .comment ∧ (skipTrivia inComment cs p).rest = []) := by
  induction cs generalizing inComment p with
  | nil => cases inComment <;> exact ⟨[], _, rfl, rfl, by simp [skipTrivia]⟩
  | cons c cs ih =>
    -- a character that is skipped, with what it leaves open
    have hskip : ∀ inComment' : Bool,
        skipTrivia inComment (c :: cs) p = skipTrivia inComment' cs (p.after c) →
        next ⟨if inComment then .comment else .code, bs⟩ c =
          .ok ⟨if inComment' then .comment else .code, bs⟩ →
        ∃ ds mode, c :: cs = ds ++ (skipTrivia inComment (c :: cs) p).rest ∧
          follow ⟨if inComment then .comment else .code, bs⟩ ds = .ok ⟨mode, bs⟩ ∧
          (mode = .code ∨ mode = .comment ∧ (skipTrivia inComment (c :: cs) p).rest = []) := by
      intro inComment' hskip hnext
      obtain ⟨ds, mode, hcs, hds, hmode⟩ := ih inComment' (p.after c)
      rw [hskip]
      exact ⟨c :: ds, mode, by rw [List.cons_append, ← hcs], by rw [follow_cons hnext, hds], hmode⟩
    cases inComment with
    | true => exact hskip (c != '\n') rfl (by by_cases hc : c = '\n' <;> simp [next, hc])
    | false =>
      by_cases hblank : Text.isBlank c = true
      · exact hskip false (by simp [skipTrivia, hblank]) (next_blank hblank)
      · by_cases hcomment : c = ';'
        · subst hcomment
          exact hskip true (by simp [skipTrivia, hblank]) rfl
        · have hstays : skipTrivia false (c :: cs) p = ⟨c :: cs, p⟩ :=
            skipTrivia_of_token (by simpa using hblank) hcomment cs p
          exact ⟨[], .code, by rw [hstays]; rfl, rfl, .inl rfl⟩

/-- Errors that more input might mend: the text ended inside of something. -/
def ScanCause.isAtEnd : ScanCause → Bool
  | .unclosedText | .endInEscape | .unclosedBraces | .missing _ => true
  | _ => false

/-- The check goes through the characters of a text in quotes or braces as its reader does: to its
end, or to the end of the input inside of it. -/
def Found.Follows (o : Openness) (cs : List Char) (f : Found) : Prop :=
  (∀ ds k, f = .ok (ds, k) → ∃ es, cs = es ++ k.rest ∧ o.follow es = .ok ⟨.code, o.brackets⟩) ∧
    ∀ e, f = .error e → e.cause.isAtEnd = true → ∃ o', o.follow cs = .ok o' ∧ o'.inText = true

namespace Found.Follows

variable {o o' : Openness} {c d : Char} {cs : List Char} {f : Found} {p : Position}

theorem found (h : o.next c = .ok ⟨.code, o.brackets⟩) :
    Follows o (c :: cs) (.ok ([], ⟨cs, p⟩)) := by
  refine ⟨?_, nofun⟩
  rintro _ _ ⟨⟩
  exact ⟨[c], rfl, follow_cons h⟩

theorem error {e : ScanError} (h : e.cause.isAtEnd = true →
    ∃ o', o.follow cs = .ok o' ∧ o'.inText = true) : Follows o cs (.error e) := by
  refine ⟨nofun, ?_⟩
  rintro _ ⟨⟩
  exact h

theorem after (hnext : o.next c = .ok o') (hbrackets : o'.brackets = o.brackets)
    (h : Follows o' cs f) : Follows o (c :: cs) f := by
  refine ⟨fun ds k hf => ?_, fun e hf hend => ?_⟩
  · obtain ⟨es, hcs, hes⟩ := h.1 ds k hf
    exact ⟨c :: es, by rw [hcs]; rfl, by rw [follow_cons hnext, hes, hbrackets]⟩
  · rw [follow_cons hnext]
    exact h.2 e hf hend

theorem push (h : Follows o cs f) : Follows o cs (f.push d) := by
  rcases f with e | ⟨ds, k⟩
  · exact .error (h.2 e rfl)
  · refine ⟨?_, nofun⟩
    rintro _ _ ⟨⟩
    exact h.1 ds k rfl

end Found.Follows

theorem readText_follows (bs : List Bracket) (cs : List Char) (p : Position) :
    Found.Follows ⟨.text false, bs⟩ cs (readText cs p) := by
  fun_induction readText cs p with
  | case1 p => exact .error fun _ => ⟨_, rfl, rfl⟩
  | case2 cs p => exact .found rfl
  | case3 cs p => exact .error nofun
  | case4 p c hquote hline hescape =>
    refine .error fun _ => ⟨⟨.text true, bs⟩, ?_, rfl⟩
    rw [follow_cons (next_text_escape hescape), follow_nil]
  | case5 p c hquote hline hescape d ds ih =>
    exact .push (.after (next_text_escape hescape) rfl (.after rfl rfl ih))
  | case6 c cs p hquote hline hescape ih =>
    exact .push (.after (next_text_plain hquote hescape) rfl ih)

theorem readBraced_follows (bs : List Bracket) (depth : Nat) (cs : List Char) (p : Position) :
    Found.Follows ⟨.braces (depth + 1) false, bs⟩ cs (readBraced depth cs p) := by
  fun_induction readBraced depth cs p with
  | case1 depth p => exact .error fun _ => ⟨_, rfl, rfl⟩
  | case2 depth cs p ih => exact .push (.after rfl rfl ih)
  | case3 cs p hopen => exact .found rfl
  | case4 depth cs p hopen hdepth ih =>
    have hnext : next ⟨.braces (depth + 1) false, bs⟩ '\x7d' =
        .ok ⟨.braces (depth - 1 + 1) false, bs⟩ := by
      have hone : ¬depth + 1 ≤ 1 := by omega
      have hpred : depth - 1 + 1 = depth + 1 - 1 := by omega
      simp only [next, braceMode, Char.reduceEq, if_false, if_true, hone, hpred]
    exact .push (.after hnext rfl ih)
  | case5 depth p hopen hclose => exact .error fun _ => ⟨⟨.braces (depth + 1) true, bs⟩, rfl, rfl⟩
  | case6 depth p hopen hclose d ds ih => exact .push (.after rfl rfl (.after rfl rfl ih))
  | case7 depth c cs p hopen hclose hescape ih =>
    have hnext : next ⟨.braces (depth + 1) false, bs⟩ c = .ok ⟨.braces (depth + 1) false, bs⟩ := by
      simp only [next, braceMode, hopen, hclose, hescape, if_false]
    exact .push (.after hnext rfl ih)

/-- The open brackets behind a token, the innermost first; a bracket that closes nothing is an
error. -/
def Token.pair (bs : List Bracket) : Token → Except Bracket (List Bracket)
  | .opening b => .ok (b :: bs)
  | .closing b =>
    match bs with
    | top :: rest => if top = b then .ok rest else .error b
    | [] => .error b
  | _ => .ok bs

theorem next_closing (bs : List Bracket) (b : Bracket) :
    Openness.close ⟨.code, bs⟩ b = ((Token.closing b).pair bs).map (⟨.code, ·⟩) := by
  cases bs with
  | nil => rfl
  | cons top rest =>
    simp only [close, Token.pair]
    split <;> rfl

/-- Where a token begins, and no tag, the check goes through its characters as the lexer does, and
both find what it does to the open brackets. -/
theorem readToken_follow (bs : List Bracket) {c : Char} {cs : List Char} {p : Position}
    (hblank : Text.isBlank c = false) (hcomment : c ≠ ';') (htag : c ≠ '<') :
    (∀ t k, readToken ⟨c :: cs, p⟩ = .ok (t, k) → t ≠ .endOfInput ∧ ∃ es, cs = es ++ k.rest ∧
      follow ⟨.code, bs⟩ (c :: es) = (t.pair bs).map (⟨.code, ·⟩)) ∧
    ∀ e, readToken ⟨c :: cs, p⟩ = .error e → e.cause.isAtEnd = true →
      ∃ o, follow ⟨.code, bs⟩ (c :: cs) = .ok o ∧ o.inText = true := by
  -- a text, whose reader goes on behind the mark that opens it
  have htext : ∀ (mode : Mode) (f : Found), next ⟨.code, bs⟩ c = .ok ⟨mode, bs⟩ →
      f.Follows ⟨mode, bs⟩ cs →
      (∀ t k, f.token .text = .ok (t, k) → t ≠ .endOfInput ∧ ∃ es, cs = es ++ k.rest ∧
        follow ⟨.code, bs⟩ (c :: es) = (t.pair bs).map (⟨.code, ·⟩)) ∧
      ∀ e, f.token .text = .error e → e.cause.isAtEnd = true →
        ∃ o, follow ⟨.code, bs⟩ (c :: cs) = .ok o ∧ o.inText = true := by
    intro mode f hnext hf
    rw [follow_cons hnext]
    cases f with
    | error e =>
      constructor
      · intro t k h
        cases h
      · rintro _ ⟨⟩
        exact hf.2 e rfl
    | ok found =>
      obtain ⟨ds, k⟩ := found
      constructor
      · rintro _ _ ⟨⟩
        obtain ⟨es, hcs, hes⟩ := hf.1 ds k rfl
        exact ⟨by simp, es, hcs, by rw [follow_cons hnext, hes]; rfl⟩
      · intro e h
        cases h
  have hbegins : Begins c cs p (readToken ⟨c :: cs, p⟩) := readToken_begins hblank hcomment
  generalize readToken ⟨c :: cs, p⟩ = read at hbegins
  cases hbegins with
  | @mark t ht =>
    have hnext : next ⟨.code, bs⟩ c = (t.pair bs).map (⟨.code, ·⟩) ∧ t ≠ .endOfInput := by
      simp only [marks, List.mem_cons, Prod.mk.injEq, List.not_mem_nil, or_false] at ht
      rcases ht with ⟨rfl, rfl⟩ | ⟨rfl, rfl⟩ | ⟨rfl, rfl⟩ | ⟨rfl, rfl⟩ | ⟨rfl, rfl⟩ | ⟨rfl, rfl⟩
      · exact ⟨rfl, by simp⟩
      · exact ⟨next_closing bs .square, by simp⟩
      · exact ⟨rfl, by simp⟩
      · exact ⟨next_closing bs .round, by simp⟩
      · exact ⟨rfl, by simp⟩
      · exact ⟨rfl, by simp⟩
    constructor
    · rintro _ _ ⟨⟩
      refine ⟨hnext.2, [], rfl, ?_⟩
      rw [follow, List.foldlM_cons, hnext.1]
      cases t.pair bs <;> rfl
    · intro e h
      cases h
  | text hc =>
    subst hc
    exact htext _ _ rfl (readText_follows bs cs _)
  | braced hc =>
    subst hc
    exact htext _ _ rfl (readBraced_follows bs 0 cs _)
  | stray hc =>
    constructor
    · intro t k h
      cases h
    · rintro _ ⟨⟩ hend
      cases hend
  | atSign hc hcs =>
    subst hc
    constructor
    · rintro _ _ ⟨⟩
      exact ⟨by simp, [], rfl, rfl⟩
    · intro e h
      cases h
  | tag hc => exact absurd hc htag
  | run hc =>
    constructor
    · rintro _ _ ⟨⟩
      refine ⟨by simp, cs.takeWhile fun ch => !isDelimiter ch, ?_, ?_⟩
      · simp [readRun, hc]
      · refine follow_word (List.forall_mem_cons.2 ⟨hc, fun d hd => ?_⟩)
        simpa using List.all_eq_true.1 List.all_takeWhile d hd
    · intro e h
      cases h

/-! ### Through all tokens -/

/-- How the tokens of a text, and the error that ends them, go with what the check keeps open, from
the open brackets `bs` on.  At a tag the two part, and nothing more is said. -/
inductive Lexing : List Bracket → List Char → List Spanned → Option ScanError → Prop
  | fault {bs : List Bracket} {cs : List Char} {e : ScanError}
    (h : e.cause.isAtEnd = true → ∃ o, follow ⟨.code, bs⟩ cs = .ok o ∧ o.inText = true) :
    Lexing bs cs [] (some e)
  | last {bs : List Bracket} {cs : List Char} {t : Spanned} {mode : Mode}
    (ht : t.token = .endOfInput) (h : follow ⟨.code, bs⟩ cs = .ok ⟨mode, bs⟩)
    (hmode : mode = .code ∨ mode = .comment) : Lexing bs cs [t] none
  | token {bs : List Bracket} {es rest : List Char} {t : Spanned} {ts : List Spanned}
    {fault : Option ScanError} (ht : t.token ≠ .endOfInput)
    (hes : follow ⟨.code, bs⟩ es = (t.token.pair bs).map (⟨.code, ·⟩))
    (hrest : ∀ bs', t.token.pair bs = .ok bs' → Lexing bs' rest ts fault) :
    Lexing bs (es ++ rest) (t :: ts) fault
  | tag {bs : List Bracket} {ds rest : List Char} {ts : List Spanned} {fault : Option ScanError}
    (hds : follow ⟨.code, bs⟩ ds = .ok ⟨.code, bs⟩) : Lexing bs (ds ++ '<' :: rest) ts fault

theorem lexFrom_lexing (bs : List Bracket) {fuel : Nat} {cs : List Char}
    (hfuel : cs.length < fuel) (p : Position) :
    Lexing bs cs (lexFrom fuel ⟨cs, p⟩).tokens (lexFrom fuel ⟨cs, p⟩).fault := by
  induction fuel generalizing bs cs p with
  | zero => exact absurd hfuel (Nat.not_lt_zero _)
  | succ fuel ih =>
    obtain ⟨ds, mode, hcs, hds, hmode⟩ := skipTrivia_follow bs false cs p
    simp only [Bool.false_eq_true, if_false] at hds
    simp only [lexFrom, nextToken]
    rcases hhere : skipTrivia false cs p with ⟨_ | ⟨c, rest⟩, p'⟩ <;> rw [hhere] at hcs hmode
    · obtain rfl : cs = ds := by simpa using hcs
      exact .last rfl hds (hmode.imp_right And.left)
    · obtain rfl : mode = .code := hmode.resolve_right fun h => by cases h.2
      obtain ⟨hblank, hcomment⟩ := skipTrivia_head (congrArg Cursor.rest hhere)
      by_cases htag : c = '<'
      · subst htag
        rw [hcs]
        exact .tag hds
      · obtain ⟨hok, herror⟩ := @readToken_follow bs c rest p' hblank hcomment htag
        rcases hread : readToken ⟨c :: rest, p'⟩ with e | ⟨t, k⟩
        · refine .fault fun hend => ?_
          rw [hcs, follow_append_of_ok hds]
          exact herror e hread hend
        · obtain ⟨ht, es, hrest, hes⟩ := hok t k hread
          have hlen : k.rest.length < fuel := by
            simp only [hcs, hrest, List.length_append, List.length_cons] at hfuel
            omega
          simp only [Except.map, ht, if_false]
          have hsplit : cs = ds ++ (c :: es) ++ k.rest := by rw [hcs, hrest]; simp
          rw [hsplit]
          refine .token ht ?_ fun bs' _ => ih bs' hlen k.position
          rw [follow_append_of_ok hds, hes]

/-! ### Through all brackets -/

/-- The brackets that a builder has open, the innermost first. -/
def Builder.brackets (b : Builder) : List Bracket := b.layers.map Layer.bracket

theorem Builder.brackets_finishPieces {b b' : Builder} (h : b.finishPieces = .ok b') :
    b'.brackets = b.brackets := by
  unfold Builder.finishPieces at h
  split at h
  · cases h
    rfl
  · obtain ⟨v, -, rfl⟩ := except_map_eq_ok.1 h
    rfl

theorem Builder.begin_pairs {b b' : Builder} {t : Token} (h : b.begin t = .ok b') :
    t.pair b.brackets = .ok b'.brackets := by
  cases t with
  | closing bracket =>
    simp only [begin, closeLayer] at h
    split at h
    · rename_i layer layers _ hlayers
      split at h
      · rename_i hsame
        have hbrackets : b'.brackets = layers.map Layer.bracket := by
          split at h <;> cases h <;> rfl
        rw [hbrackets, Builder.brackets, hlayers, List.map_cons, Token.pair, if_pos hsame]
      · cases h
    · cases h
  | endOfInput => cases h
  | _ =>
    cases h
    rfl

theorem Builder.next_pairs {b b' : Builder} {t : Spanned} (h : b.next t = .ok b') :
    t.token.pair b.brackets = .ok b'.brackets := by
  unfold Builder.next at h
  split at h
  · cases h
    rcases t with ⟨t, p, joined⟩
    cases t <;> try rfl
    rename_i hcontinues
    simp [continues] at hcontinues
  · obtain ⟨b₁, h₁, h⟩ := except_bind_eq_ok.1 h
    obtain ⟨_, -, h⟩ := except_bind_eq_ok.1 h
    rw [← Builder.brackets_finishPieces h₁]
    exact Builder.begin_pairs h

/-- If it fails, then not for want of input. -/
def Final {α : Type} (x : Except ScanCause α) : Prop := ∀ c, x = .error c → c.isAtEnd = false

namespace Final

variable {α β : Type}

theorem ok {a : α} : Final (.ok a) := nofun

theorem error {c : ScanCause} (h : c.isAtEnd = false) : Final (.error c : Except ScanCause α) := by
  rintro _ ⟨⟩
  exact h

theorem bind {x : Except ScanCause α} {f : α → Except ScanCause β} (hx : Final x)
    (hf : ∀ a, x = .ok a → Final (f a)) : Final (x >>= f) := by
  cases x with
  | error c => exact error (hx c rfl)
  | ok a => exact hf a rfl

theorem map {x : Except ScanCause α} {f : α → β} (hx : Final x) : Final (x.map f) := by
  cases x with
  | error c => exact error (hx c rfl)
  | ok a => exact ok

theorem segmentValues (p : Piece) (first last : Bool) : Final (p.segmentValues first last) := by
  cases p with
  | group items => exact ok
  | run cs =>
    rw [segmentValues_run]
    split
    · exact ok
    · split
      · exact error rfl
      · exact ok

theorem pathSegments (first : Bool) (pieces : List Piece) : Final (pathSegments first pieces) := by
  fun_induction Source.pathSegments first pieces with
  | case1 => exact ok
  | case2 => exact segmentValues _ _ _
  | case3 first p ps hps ih => exact bind (segmentValues _ _ _) fun _ _ => bind ih fun _ _ => ok

theorem assemblePath (pieces : List Piece) : Final (assemblePath pieces) := by
  unfold Source.assemblePath
  split
  rename_i get pieces' _
  split
  rename_i set pieces'' _
  split
  · exact error rfl
  · refine bind (pathSegments _ _) fun items _ => ?_
    split
    · exact error rfl
    · exact ok

theorem runValue (cs : List Char) : Final (runValue cs) := by
  unfold Source.runValue
  split
  · exact ok
  · exact ok
  · exact ok
  · exact ok
  · split
    · exact error rfl
    · exact ok
  · split
    · exact assemblePath _
    · exact ok

theorem piecesValue (pieces : List Piece) : Final (piecesValue pieces) := by
  unfold Source.piecesValue
  split
  · exact ok
  · exact runValue _
  · exact assemblePath _

theorem finishPieces (b : Builder) : Final b.finishPieces := by
  unfold Builder.finishPieces
  split
  · exact ok
  · exact map (piecesValue _)

theorem checkQuote (b : Builder) (t : Spanned) : Final (b.checkQuote t) := by
  unfold Builder.checkQuote
  split
  · exact error rfl
  · exact ok

theorem begin (b : Builder) (t : Token) : Final (b.begin t) := by
  cases t with
  | closing bracket =>
    simp only [Builder.begin, Builder.closeLayer]
    split
    · split
      · split <;> exact ok
      · exact error rfl
    · exact error rfl
  | endOfInput => exact error rfl
  | _ => exact ok

theorem next (b : Builder) (t : Spanned) : Final (b.next t) := by
  unfold Builder.next
  split
  · exact ok
  · exact bind (finishPieces b) fun b _ => bind (checkQuote b t) fun _ _ => begin b t.token

theorem finish {b : Builder} (hb : b.brackets = []) (t : Spanned) : Final (b.finish t) := by
  refine bind (finishPieces b) fun b₁ h₁ => bind (checkQuote b₁ t) fun _ _ => ?_
  have hlayers : b₁.layers = [] :=
    List.map_eq_nil_iff.1 ((Builder.brackets_finishPieces h₁).trans hb)
  rw [hlayers]
  split
  · exact ok
  · rename_i hlayer
    cases hlayer
  · exact error rfl

end Final

theorem Builder.finish_eq_ok {b : Builder} {t : Spanned} {vs : List Value}
    (h : b.finish t = .ok vs) : b.brackets = [] := by
  obtain ⟨b₁, h₁, h⟩ := except_bind_eq_ok.1 h
  obtain ⟨_, -, h⟩ := except_bind_eq_ok.1 h
  rw [← Builder.brackets_finishPieces h₁]
  split at h
  · rename_i hlayers
    rw [Builder.brackets, hlayers]
    rfl
  · cases h
  · cases h

theorem locate_eq_error {α : Type} {p : Position} {x : Except ScanCause α} {e : ScanError}
    (h : locate p x = .error e) : ∃ c, x = .error c ∧ e = ⟨c, p⟩ := by
  cases x with
  | error c =>
    cases h
    exact ⟨c, rfl, rfl⟩
  | ok _ => cases h

theorem build_cons_eq_ok {b : Builder} {t : Spanned} {ts : List Spanned} {vs : List Value}
    (ht : t.token ≠ .endOfInput) (h : build b (t :: ts) = .ok vs) :
    ∃ b', t.token.pair b.brackets = .ok b'.brackets ∧ build b' ts = .ok vs := by
  rw [build, if_neg ht] at h
  rcases hnext : b.next t with cause | b' <;> rw [hnext] at h
  · cases h
  · exact ⟨b', Builder.next_pairs hnext, h⟩

/-- Input in which a bracket closes nothing stays so: whatever comes after it, nothing is built of
its tokens. -/
theorem Lexing.not_built {bs : List Bracket} {cs r t : List Char} {ts : List Spanned} {bad : Bracket}
    {fault : Option ScanError} (h : Lexing bs cs ts fault) (hfault : fault = none)
    (hcs : cs = r ++ t) (hno : '<' ∉ r) (hr : follow ⟨.code, bs⟩ r = .error bad)
    {b : Builder} (hb : b.brackets = bs) (vs : List Value) : build b ts ≠ .ok vs := by
  induction h generalizing r b with
  | fault _ => cases hfault
  | last ht hall _ =>
    rw [hcs, follow_append_of_error hr] at hall
    cases hall
  | @token bs es rest t' ts fault ht hes hrest ih =>
    intro hbuild
    obtain ⟨b', hpair, hbuild⟩ := build_cons_eq_ok ht hbuild
    rw [hb] at hpair
    rw [hpair] at hes
    rcases List.append_eq_append_iff.1 hcs with ⟨r', rfl, hrest'⟩ | ⟨es', rfl, -⟩
    · rw [follow_append_of_ok hes] at hr
      exact ih b'.brackets hpair hfault hrest' (fun h => hno (List.mem_append_right _ h)) hr rfl hbuild
    · rw [follow_append_of_error hr] at hes
      cases hes
  | @tag bs ds rest ts fault hds =>
    -- the input does not reach up to the tag
    rcases List.append_eq_append_iff.1 hcs with ⟨r', rfl, hrest⟩ | ⟨ds', rfl, -⟩
    · cases r' with
      | nil =>
        rw [List.append_nil, hds] at hr
        cases hr
      | cons c r' =>
        obtain rfl : '<' = c := (List.cons_eq_cons.1 hrest).1
        exact absurd (List.mem_append_right _ List.mem_cons_self) hno
    · rw [follow_append_of_error hr] at hds
      cases hds

theorem Lexing.built {bs : List Bracket} {cs : List Char} {ts : List Spanned}
    {fault : Option ScanError} (h : Lexing bs cs ts fault) (hfault : fault = none)
    (hno : '<' ∉ cs) {b : Builder} (hb : b.brackets = bs) {vs : List Value}
    (hbuild : build b ts = .ok vs) :
    ∃ o, follow ⟨.code, bs⟩ cs = .ok o ∧ o.status = .complete := by
  induction h generalizing b with
  | fault _ => cases hfault
  | @last bs cs t mode ht hall hmode =>
    rw [build, if_pos ht] at hbuild
    obtain rfl : [] = bs := (Builder.finish_eq_ok (locate_eq_ok hbuild)).symm.trans hb
    refine ⟨_, hall, ?_⟩
    rcases hmode with rfl | rfl <;> rfl
  | token ht hes hrest ih =>
    obtain ⟨b', hpair, hbuild⟩ := build_cons_eq_ok ht hbuild
    rw [hb] at hpair
    rw [hpair] at hes
    obtain ⟨o, ho, hcomplete⟩ :=
      ih b'.brackets hpair hfault (fun h => hno (List.mem_append_right _ h)) rfl hbuild
    exact ⟨o, by rw [follow_append_of_ok hes, ho], hcomplete⟩
  | tag _ => exact absurd (List.mem_append_right _ List.mem_cons_self) hno

theorem Lexing.inText {bs : List Bracket} {cs : List Char} {ts : List Spanned}
    {fault : Option ScanError} (h : Lexing bs cs ts fault) {e : ScanError} (hfault : fault = some e)
    (hend : e.cause.isAtEnd = true) (hno : '<' ∉ cs) {o : Openness}
    (ho : follow ⟨.code, bs⟩ cs = .ok o) : o.inText = true := by
  induction h with
  | fault h =>
    cases hfault
    obtain ⟨o', ho', htext⟩ := h hend
    rw [ho] at ho'
    cases ho'
    exact htext
  | last _ _ _ => cases hfault
  | @token bs es rest t ts fault ht hes hrest ih =>
    cases hpair : t.token.pair bs with
    | error bad =>
      rw [hpair] at hes
      rw [follow_append_of_error hes] at ho
      cases ho
    | ok bs' =>
      rw [hpair] at hes
      rw [follow_append_of_ok hes] at ho
      exact ih bs' hpair hfault (fun h => hno (List.mem_append_right _ h)) ho
  | tag _ => exact absurd (List.mem_append_right _ List.mem_cons_self) hno

theorem Lexing.missing {bs : List Bracket} {cs : List Char} {ts : List Spanned}
    {fault : Option ScanError} (h : Lexing bs cs ts fault) (hfault : fault = none)
    (hno : '<' ∉ cs) {b : Builder} (hb : b.brackets = bs) {e : ScanError}
    (hbuild : build b ts = .error e) (hend : e.cause.isAtEnd = true) {o : Openness}
    (ho : follow ⟨.code, bs⟩ cs = .ok o) : o.brackets ≠ [] := by
  induction h generalizing b with
  | fault _ => cases hfault
  | @last bs cs t mode ht hall _ =>
    rintro hnone
    rw [hall] at ho
    cases ho
    rw [build, if_pos ht] at hbuild
    obtain ⟨c, hc, rfl⟩ := locate_eq_error hbuild
    rw [Final.finish (hb.trans hnone) t c hc] at hend
    cases hend
  | @token bs es rest t ts fault ht hes hrest ih =>
    rw [build, if_neg ht] at hbuild
    rcases hnext : b.next t with c | b' <;> rw [hnext] at hbuild
    · cases hbuild
      rw [Final.next b t c hnext] at hend
      cases hend
    · have hpair := Builder.next_pairs hnext
      rw [hb] at hpair
      rw [hpair] at hes
      rw [follow_append_of_ok hes] at ho
      exact ih b'.brackets hpair hfault (fun h => hno (List.mem_append_right _ h)) rfl hbuild ho
  | tag _ => exact absurd (List.mem_append_right _ List.mem_cons_self) hno

theorem lex_lexing (s : String) : Lexing [] s.toList (lex s).tokens (lex s).fault :=
  lexFrom_lexing [] (Nat.lt_succ_self _) _

theorem tokenize_eq_ok {s : String} {tokens : List Spanned} (h : tokenize s = .ok tokens) :
    (lex s).fault = none ∧ tokens = (lex s).tokens := by
  simp only [tokenize] at h
  split at h
  · cases h
  · rename_i hfault
    cases h
    exact ⟨hfault, rfl⟩

end Source

namespace Interactive

open Source Openness

theorem completeness_eq_invalid {s : String} {b : Bracket} (h : completeness s = .invalid b) :
    follow {} s.toList = .error b := by
  unfold completeness at h
  split at h
  · unfold status at h
    split at h <;> cases h
  · cases h
    assumption

theorem completeness_eq_complete {s : String} (h : completeness s = .complete) :
    ∃ o, follow {} s.toList = .ok o ∧ o.brackets = [] ∧ o.inText = false := by
  unfold completeness at h
  split at h
  · rename_i o ho
    unfold status at h
    split at h
    · rename_i hclosed
      rw [Bool.and_eq_true] at hclosed
      exact ⟨o, ho, List.isEmpty_iff.1 hclosed.1, by simpa using hclosed.2⟩
    · cases h
  · cases h

/-- The check of completeness agrees with scanning, on input without the sign that may open a tag:
what scans is complete, what is invalid never scans, whatever is added to it, and what is complete
does not fail for want of more input. -/
theorem completeness_agrees (s : String) (h : '<' ∉ s.toList) :
    ((∃ items, scan s = .ok items) → completeness s = .complete) ∧
    (∀ b, completeness s = .invalid b → ∀ t, ∃ e, scan (s ++ t) = .error e) ∧
    (completeness s = .complete → ∀ e, scan s = .error e → e.cause.isAtEnd = false) := by
  have hlexing := lex_lexing s
  refine ⟨fun ⟨items, hscan⟩ => ?_, fun b hinvalid t => ?_, fun hcomplete e hscan => ?_⟩
  · obtain ⟨tokens, htokens, hbuild⟩ := except_bind_eq_ok.1 hscan
    obtain ⟨hfault, rfl⟩ := tokenize_eq_ok htokens
    obtain ⟨o, ho, hstatus⟩ := hlexing.built hfault h rfl hbuild
    have hrun : s.toList.foldlM next {} = .ok o := ho
    simp only [completeness, hrun, hstatus]
  · cases hscan : scan (s ++ t) with
    | error e => exact ⟨e, rfl⟩
    | ok items =>
      obtain ⟨tokens, htokens, hbuild⟩ := except_bind_eq_ok.1 hscan
      obtain ⟨hfault, rfl⟩ := tokenize_eq_ok htokens
      have hbad := completeness_eq_invalid hinvalid
      exact absurd hbuild
        ((lex_lexing (s ++ t)).not_built hfault String.toList_append h hbad rfl items)
  · obtain ⟨o, ho, hbrackets, htext⟩ := completeness_eq_complete hcomplete
    cases hend : e.cause.isAtEnd with
    | false => rfl
    | true =>
      cases hfault : (lex s).fault with
      | some e' =>
        have hsame : e' = e := by
          simpa [scan, tokenize, hfault, bind, Except.bind] using hscan
        rw [hlexing.inText hfault (hsame ▸ hend) h ho] at htext
        cases htext
      | none =>
        have hbuild : build {} (lex s).tokens = .error e := by
          simpa [scan, tokenize, hfault, bind, Except.bind] using hscan
        exact absurd hbrackets (hlexing.missing hfault h rfl hbuild hend ho)

/-- Brackets in texts and comments do not count; a round bracket that closes a square one stays
wrong; a brace too many is no reason to ask for more. -/
theorem completeness_agrees_nested :
    completeness "a: [\"]^\"\" \x7b(\x7b^\x7d\x7d\x7d ; )\n (b)]" = .complete ∧
    (∀ t, ∃ e, scan ("[(1) 2)" ++ t) = .error e) ∧
    ∃ e, scan "[a] \x7d" = .error e ∧ e.cause.isAtEnd = false := by
  have hscans : (scan "a: [\"]^\"\" \x7b(\x7b^\x7d\x7d\x7d ; )\n (b)]").toOption.isSome = true := by
    decide +kernel
  refine ⟨(completeness_agrees _ (by decide)).1 ?_,
    (completeness_agrees "[(1) 2)" (by decide)).2.1 .round (by decide),
    ⟨.unexpectedBrace, ⟨1, 5⟩⟩, ?_, ?_⟩
  · obtain ⟨items, hitems⟩ := Option.isSome_iff_exists.1 hscans
    exact ⟨items, except_toOption_eq_some.1 hitems⟩
  · rfl
  · exact (completeness_agrees "[a] \x7d" (by decide)).2.2 (by decide) _ rfl

end Interactive

end Homoicon
