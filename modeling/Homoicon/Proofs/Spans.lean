import Homoicon.Proofs.Tokens
import Mathlib.Data.List.Forall2
import Mathlib.Data.List.Induction

/-!
# Where the tokens of a text stand

Every token but the end of input has a span of its own.  The spans stand one behind the other with
blanks and comments between them, a token is read from the characters of its span alone, and its
place is counted in the characters before it.
-/

namespace Homoicon.Source

/-- The characters of a text from `start` up to, but without, `stop`. -/
structure Span where
  start : Nat
  stop : Nat
  deriving DecidableEq, Inhabited

def Span.chars (text : List Char) (w : Span) : List Char := (text.take w.stop).drop w.start

/-- What stands before, between and behind spans, from `n` to the end of a text. -/
def gaps (length : Nat) : Nat → List Span → List Span
  | n, [] => [⟨n, length⟩]
  | n, w :: ws => ⟨n, w.start⟩ :: gaps length w.stop ws

/-- The place of the character behind `n` characters: the lines that ended before it, and what
stands before it in its own line. -/
def positionAt (text : List Char) (n : Nat) : Position where
  line := 1 + (text.take n).count '\n'
  column := 1 + ((text.take n).reverse.takeWhile (· ≠ '\n')).length

/-- Whether the characters `cs` alone are read as `t`, to their end.  An at sign that silences what
stands behind it is that one character; with nothing behind it, it would be a word. -/
def Token.IsReadFrom (t : Token) (cs : List Char) : Prop :=
  t = .atSign ∧ cs = ['@'] ∨ ∀ p, readToken ⟨cs, p⟩ = .ok (t, ⟨[], p.afterAll cs⟩)

/-- A token on its span of a text. -/
structure StandsOn (text : List Char) (t : Spanned) (w : Span) : Prop where
  filled : w.start < w.stop ∧ w.stop ≤ text.length
  notEnd : t.token ≠ .endOfInput
  /-- The token is read where it stands, up to the end of its span. -/
  inPlace : ∀ p, readToken ⟨text.drop w.start, p⟩ =
    .ok (t.token, ⟨text.drop w.stop, p.afterAll (w.chars text)⟩)
  alone : t.token.IsReadFrom (w.chars text)

/-- Tokens on their spans of a text from the place `n` on; `last` is the end of input. -/
structure Placement (text : List Char) (n : Nat) (units : List Spanned) (last : Spanned)
    (spans : List Span) : Prop where
  last_token : last.token = .endOfInput
  stands : List.Forall₂ (StandsOn text) units spans
  /-- One span ends before the next begins. -/
  ordered : spans.Pairwise fun v w => v.stop ≤ w.start
  behind : ∀ w ∈ spans, n ≤ w.start
  /-- Between spans are blanks and comments, and only at the end of the text a comment is open. -/
  trivia : ∀ g ∈ gaps text.length n spans, Trivia (decide (g.stop = text.length)) (g.chars text)
  joined : (units ++ [last]).map (·.joined) =
    (gaps text.length n spans).map fun g => (g.chars text).isEmpty
  position : (units ++ [last]).map (·.position) =
    (gaps text.length n spans).map fun g => positionAt text g.stop

/-! ### Characters and places -/

theorem Span.chars_between (before cs rest : List Char) :
    Span.chars (before ++ (cs ++ rest)) ⟨before.length, (before ++ cs).length⟩ = cs := by
  rw [Span.chars, ← List.append_assoc, List.take_left, List.drop_left]

theorem afterAll_eq_positionAt (before rest : List Char) :
    ({} : Position).afterAll before = positionAt (before ++ rest) before.length := by
  rw [positionAt, List.take_left]
  induction before using List.reverseRec with
  | nil => rfl
  | append_singleton before c ih =>
    rw [Position.afterAll_append, ih]
    by_cases hc : c = '\n'
    · simp [Position.afterAll, Position.after, hc]
      omega
    · simp [Position.afterAll, Position.after, hc]
      omega

theorem Lexeme.isReadFrom {t : Token} {cs rest : List Char} (h : Lexeme t cs rest) :
    t.IsReadFrom cs := by
  by_cases hat : t = .atSign
  · exact .inl ⟨hat, h.atSign hat⟩
  · have hends : t.Ends cs [] := by
      cases t with
      | atSign => exact absurd rfl hat
      | run s => exact ⟨by simp, fun _ => rfl, fun _ => rfl⟩
      | _ => trivial
    refine .inr fun p => ?_
    have hread := h.reads [] hends p
    rwa [List.append_nil] at hread

theorem Lexeme.standsOn {t : Token} {cs rest : List Char} (h : Lexeme t cs rest)
    (before : List Char) (p : Position) (joined : Bool) :
    StandsOn (before ++ (cs ++ rest)) ⟨t, p, joined⟩ ⟨before.length, (before ++ cs).length⟩ where
  filled := by
    have hlength := List.length_pos_iff.2 h.ne_nil
    simp only [List.length_append]
    omega
  notEnd := h.notEnd
  inPlace p := by
    have hstop : (before ++ (cs ++ rest)).drop (before ++ cs).length = rest := by
      rw [← List.append_assoc, List.drop_left]
    rw [List.drop_left, hstop, Span.chars_between]
    exact h.reads rest h.ends p
  alone := by
    rw [Span.chars_between]
    exact h.isReadFrom

/-! ### Placing the tokens -/

theorem placement_last {before cs : List Char} (h : Trivia true cs) :
    Placement (before ++ cs) before.length []
      ⟨.endOfInput, (({} : Position).afterAll before).afterAll cs, cs.isEmpty⟩ [] := by
  have hgap : Span.chars (before ++ cs) ⟨before.length, (before ++ cs).length⟩ = cs := by
    have hbetween := Span.chars_between before cs []
    rwa [List.append_nil] at hbetween
  have hposition := afterAll_eq_positionAt (before ++ cs) []
  rw [List.append_nil] at hposition
  refine ⟨rfl, .nil, .nil, by simp, ?_, ?_, ?_⟩
  · simp only [gaps, List.mem_singleton, forall_eq, decide_true, hgap]
    exact h
  · simp only [gaps, List.nil_append, List.map_cons, List.map_nil, hgap]
  · simp only [gaps, List.nil_append, List.map_cons, List.map_nil, ← Position.afterAll_append,
      hposition]

theorem Placement.token {before gap cs rest : List Char} {t : Token} {units : List Spanned}
    {last : Spanned} {spans : List Span} (hgap : Trivia false gap) (h : Lexeme t cs rest)
    (hrest : Placement (before ++ (gap ++ (cs ++ rest))) (before ++ (gap ++ cs)).length units last
      spans) :
    Placement (before ++ (gap ++ (cs ++ rest))) before.length
      (⟨t, (({} : Position).afterAll before).afterAll gap, gap.isEmpty⟩ :: units) last
      (⟨(before ++ gap).length, (before ++ (gap ++ cs)).length⟩ :: spans) := by
  have hstands := h.standsOn (before ++ gap) ((({} : Position).afterAll before).afterAll gap)
    gap.isEmpty
  have hfirst : Span.chars (before ++ (gap ++ (cs ++ rest)))
      ⟨before.length, (before ++ gap).length⟩ = gap := Span.chars_between before gap (cs ++ rest)
  have hposition := afterAll_eq_positionAt (before ++ gap) (cs ++ rest)
  simp only [List.append_assoc] at hstands hposition
  have hinner : (before ++ gap).length ≠ (before ++ (gap ++ (cs ++ rest))).length :=
    Nat.ne_of_lt (Nat.lt_of_lt_of_le hstands.filled.1 hstands.filled.2)
  refine ⟨hrest.last_token, .cons hstands hrest.stands, .cons hrest.behind hrest.ordered, ?_, ?_, ?_,
    ?_⟩
  · rintro w (_ | ⟨_, hw⟩)
    · simp
    · have hbehind := hrest.behind w hw
      simp only [List.length_append] at hbehind
      omega
  · rintro g (_ | ⟨_, hg⟩)
    · rw [hfirst, decide_eq_false hinner]
      exact hgap
    · exact hrest.trivia g hg
  · simp only [gaps, List.cons_append, List.map_cons, hfirst, hrest.joined]
  · simp only [gaps, List.cons_append, List.map_cons, ← Position.afterAll_append, hposition,
      hrest.position]

theorem Splits.placement {p : Position} {cs : List Char} {ts : List Spanned}
    {fault : Option ScanError} (h : Splits p cs ts fault) (hfault : fault = none)
    (before : List Char) (hp : p = ({} : Position).afterAll before) :
    ∃ units last spans, ts = units ++ [last] ∧
      Placement (before ++ cs) before.length units last spans := by
  induction h generalizing before with
  | last h =>
    subst hp
    exact ⟨[], _, [], rfl, placement_last h⟩
  | fault => cases hfault
  | @token p gap cs rest t ts fault hgap h _ ih =>
    subst hp
    obtain ⟨units, last, spans, rfl, hplaced⟩ :=
      ih hfault (before ++ (gap ++ cs)) (Position.afterAll_append _ _ _).symm
    simp only [List.append_assoc] at hplaced
    exact ⟨_ :: units, last, _ :: spans, rfl, hplaced.token hgap h⟩

theorem Splits.length_le {p : Position} {cs : List Char} {ts : List Spanned}
    {fault : Option ScanError} (h : Splits p cs ts fault) : ts.length ≤ cs.length + 1 := by
  induction h with
  | last => simp
  | fault => simp
  | token _ h _ ih =>
    have hlength := List.length_pos_iff.2 h.ne_nil
    simp only [List.length_cons, List.length_append]
    omega

/-- Tokenizing loses nothing: the tokens of a text stand on spans of it, one behind the other, each
read from its span, with blanks and comments between them, and each knows its place and whether it
is joined to what stands before it.  No fuel is missing, for any text. -/
theorem tokenize_lossless (s : String) :
    (∀ more, lexFrom (s.toList.length + 1 + more) (Cursor.start s) = lex s) ∧
    ∀ tokens, tokenize s = .ok tokens →
      tokens.length ≤ s.toList.length + 1 ∧
      ∃ units last spans, tokens = units ++ [last] ∧ Placement s.toList 0 units last spans := by
  refine ⟨fun more => ?_, fun tokens h => ?_⟩
  · exact (lexFrom_eq_iff (by omega)).2 (splits_lex s)
  · have hsplits := tokenize_eq_ok_iff.1 h
    exact ⟨hsplits.length_le, hsplits.placement rfl [] rfl⟩

theorem tokenize_lossless_commented : ∃ units last spans,
    tokenize "a;b\n [c" = .ok (units ++ [last]) ∧ units.length = 3 ∧
      Placement "a;b\n [c".toList 0 units last spans := by
  have htokens : tokenize "a;b\n [c" = .ok
      [⟨.run "a", ⟨1, 1⟩, true⟩, ⟨.opening .square, ⟨2, 2⟩, false⟩, ⟨.run "c", ⟨2, 3⟩, true⟩,
        ⟨.endOfInput, ⟨2, 4⟩, true⟩] := by decide +kernel
  obtain ⟨-, units, last, spans, hunits, hplaced⟩ := (tokenize_lossless "a;b\n [c").2 _ htokens
  have hlength := congrArg List.length hunits
  rw [List.length_append, List.length_singleton] at hlength
  exact ⟨units, last, spans, hunits ▸ htokens, (Nat.succ.inj hlength).symm, hplaced⟩

end Homoicon.Source
