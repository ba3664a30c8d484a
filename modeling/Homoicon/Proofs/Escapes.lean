import Homoicon.Proofs.Lines

/-!
# Escapes in texts

The written form of a text escapes with a backslash.  Its reader takes a caret for an escape as
well, and it knows no escape by code point, none for a return and none for a zero.  So exactly those
texts are read back that hold nothing of this: an escape that the reader does not know shows its
letter, and a caret is lost with what it takes for an escape.
-/

namespace Homoicon.Source

variable {c : Char} {cs : List Char} {k : Cursor} {p : Position}

theorem Found.push_eq_ok {f : Found} (h : f.push c = .ok (cs, k)) :
    ∃ ds, cs = c :: ds ∧ f = .ok (ds, k) := by
  obtain ⟨⟨ds, k⟩, rfl, heq⟩ := except_map_eq_ok.1 h
  cases heq
  exact ⟨ds, rfl, rfl⟩

theorem unescape_ne_caret (h : c ≠ '^') : unescape c ≠ '^' := by
  unfold unescape
  split
  · decide
  · split
    · decide
    · exact h

theorem quotedChar_shape (c : Char) :
    Text.quotedChar c = [c] ∨ ∃ d ds, Text.quotedChar c = '\\' :: d :: ds := by
  unfold Text.quotedChar Text.codePointEscape
  repeat' split
  all_goals simp

theorem head_quotedChar (h : c ≠ '^') : ∃ d ds, Text.quotedChar c = d :: ds ∧ d ≠ '^' := by
  obtain hplain | ⟨d, ds, hescaped⟩ := quotedChar_shape c
  · exact ⟨c, [], hplain, h⟩
  · exact ⟨'\\', d :: ds, hescaped, by decide⟩

theorem quotedChar_unknown (h : Text.isFaithful c = false) (hcaret : c ≠ '^') :
    ∃ d ds, Text.quotedChar c = '\\' :: d :: ds ∧ unescape d ≠ c ∧ d ≠ '^' := by
  by_cases hzero : c = '\x00'
  · subst hzero
    exact ⟨'0', [], rfl, by decide, by decide⟩
  by_cases hreturn : c = '\r'
  · subst hreturn
    exact ⟨'r', [], rfl, by decide, by decide⟩
  have hcode : Text.quotedChar c = Text.codePointEscape c := by
    simpa [Text.isFaithful, hcaret, hreturn, hzero] using h
  refine ⟨'u', _, hcode, ?_, by decide⟩
  rintro rfl
  exact absurd hcode (by decide)

/-- Read back after `n` carets that were left over, what is no caret leaves none. -/
theorem readText_quotedChar_eq_ok {n : Nat} {rest : List Char} (hcaret : c ≠ '^')
    (h : readText (Text.quotedChar c ++ rest) p = .ok (List.replicate n '^' ++ c :: cs, k)) :
    n = 0 ∧ Text.isFaithful c = true ∧ ∃ p', readText rest p' = .ok (cs, k) := by
  -- the first character that is found is the caret, if one is left over, and else `c`
  have hfirst : ∀ d f, d ≠ '^' → Found.push d f = .ok (List.replicate n '^' ++ c :: cs, k) →
      n = 0 ∧ c = d ∧ f = .ok (cs, k) := by
    intro d f hd hf
    obtain ⟨ds, hds, hf⟩ := Found.push_eq_ok hf
    cases n with
    | zero =>
      cases hds
      exact ⟨rfl, rfl, hf⟩
    | succ n =>
      cases hds
      exact absurd rfl hd
  cases hfaithful : Text.isFaithful c with
  | true =>
    obtain ⟨p', hp⟩ := readText_quotedChar hfaithful rest p
    rw [hp] at h
    obtain ⟨hn, -, hrest⟩ := hfirst c _ hcaret h
    exact ⟨hn, rfl, p', hrest⟩
  | false =>
    obtain ⟨d, ds, hwritten, hne, hd⟩ := quotedChar_unknown hfaithful hcaret
    rw [hwritten, List.cons_append, List.cons_append, readText_escape rfl] at h
    exact absurd (hfirst _ _ (unescape_ne_caret hd) h).2.1.symm hne

theorem readText_caret_eq_ok {n : Nat}
    (h : readText ('^' :: (Text.quotedChars cs ++ ['"'])) p =
      .ok (List.replicate n '^' ++ '^' :: cs, k)) :
    ∃ ds, cs = '^' :: ds ∧
      ∃ p', readText (Text.quotedChars ds ++ ['"']) p' = .ok (List.replicate (n + 1) '^' ++ ds, k) := by
  have hcarets : List.replicate n '^' ++ '^' :: cs = '^' :: (List.replicate n '^' ++ cs) := by
    rw [List.append_cons, ← List.replicate_succ', List.replicate_succ, List.cons_append]
  rw [hcarets] at h
  cases cs with
  | nil => cases h
  | cons d ds =>
    by_cases hd : d = '^'
    · subst hd
      have hwritten : Text.quotedChar '^' = ['^'] := by decide
      rw [Text.quotedChars_cons, hwritten, List.append_assoc, List.singleton_append,
        readText_escape rfl] at h
      obtain ⟨es, hes, hrest⟩ := Found.push_eq_ok h
      cases hes
      refine ⟨ds, rfl, _, hrest.trans ?_⟩
      rw [List.append_cons, ← List.replicate_succ']
    · obtain ⟨e, es, hwritten, he⟩ := head_quotedChar hd
      rw [Text.quotedChars_cons, hwritten, List.cons_append, List.cons_append,
        readText_escape rfl] at h
      obtain ⟨fs, hfs, -⟩ := Found.push_eq_ok h
      exact absurd (List.cons.inj hfs).1.symm (unescape_ne_caret he)

/-- A text is read from its written form, after some carets, only if there are none and it shows
itself.  A caret in it would leave more and more of them over. -/
theorem readText_quotedChars_eq_ok {n : Nat}
    (h : readText (Text.quotedChars cs ++ ['"']) p = .ok (List.replicate n '^' ++ cs, k)) :
    n = 0 ∧ ∀ c ∈ cs, Text.isFaithful c = true := by
  induction hlength : cs.length using Nat.strongRecOn generalizing cs n p with
  | ind length ih =>
    subst hlength
    cases cs with
    | nil =>
      cases n with
      | zero => exact ⟨rfl, nofun⟩
      | succ n => cases h
    | cons c cs =>
      by_cases hcaret : c = '^'
      · subst hcaret
        have hwritten : Text.quotedChar '^' = ['^'] := by decide
        rw [Text.quotedChars_cons, hwritten, List.append_assoc, List.singleton_append] at h
        obtain ⟨ds, rfl, p', hrest⟩ := readText_caret_eq_ok h
        exact absurd (ih _ (by simp only [List.length_cons]; omega) hrest rfl).1 (Nat.succ_ne_zero n)
      · rw [Text.quotedChars_cons, List.append_assoc] at h
        obtain ⟨rfl, hfaithful, p', hrest⟩ := readText_quotedChar_eq_ok hcaret h
        obtain ⟨-, hcs⟩ := ih _ (Nat.lt_succ_self _) (n := 0) hrest rfl
        exact ⟨rfl, List.forall_mem_cons.2 ⟨hfaithful, hcs⟩⟩

theorem scan_quote {s : String} {vs : List Value} (hs : s.toList = '"' :: cs)
    (h : scan s = .ok vs) :
    ∃ p ds k ws, readText cs p = .ok (ds, k) ∧ vs = .text (String.ofList ds) :: ws := by
  obtain ⟨ts, htokens, hbuild⟩ := except_bind_eq_ok.1 h
  have hsplits := tokenize_eq_ok_iff.1 htokens
  rw [hs] at hsplits
  have hblank : ∀ {atEnd gap}, ¬Trivia atEnd ('"' :: gap) := by
    rintro atEnd gap (_ | hblank)
    exact absurd hblank (by decide)
  generalize hchars : '"' :: cs = chars at hsplits
  cases hsplits with
  | last h =>
    subst hchars
    exact absurd h hblank
  | @token _ gap es rest t ts _ hgap hlexeme hrest =>
    cases gap with
    | cons d gap =>
      cases hchars
      exact absurd hgap hblank
    | nil =>
      have hread : readToken ⟨'"' :: cs, {}⟩ = (readText cs (({} : Position).after '"')).token .text :=
        rfl
      rw [hchars, List.nil_append, hlexeme.reads rest hlexeme.ends] at hread
      obtain ⟨⟨ds, k⟩, hfound, htoken⟩ := except_map_eq_ok.1 hread.symm
      cases htoken
      have hbehind := build_behind (hrest.endOfInput_mem rfl) {} [.text (String.ofList ds)]
      obtain ⟨ws, -, hvs⟩ := except_map_eq_ok.1 (hbehind.symm.trans hbuild)
      exact ⟨_, ds, _, ws, hfound, hvs.symm⟩

/-- A text is read back from its written form exactly if it holds no caret, no return, no zero and
nothing that is written by its code point. -/
theorem scan_mold_text (s : String) :
    scan (Value.text s).mold = .ok [.text s] ↔
      ∀ c ∈ s.toList, c ≠ '^' ∧ c ≠ '\r' ∧ c ≠ '\x00' ∧
        Text.quotedChar c ≠ Text.codePointEscape c := by
  have hmold : (Value.text s).mold = Text.quoted s := rfl
  have hfaithful : ∀ c, Text.isFaithful c = true ↔ c ≠ '^' ∧ c ≠ '\r' ∧ c ≠ '\x00' ∧
      Text.quotedChar c ≠ Text.codePointEscape c := by
    simp [Text.isFaithful, and_assoc]
  simp only [hmold, ← hfaithful]
  constructor
  · intro h
    obtain ⟨p, ds, k, ws, hread, heq⟩ := scan_quote (Text.toList_quoted s) h
    cases heq
    rw [String.toList_ofList] at hread ⊢
    exact (readText_quotedChars_eq_ok (n := 0) hread).2
  · intro h
    have hlexes : Lexes (gap true ++ ((Text.quoted s).toList ++ [])) true (.text s) [] :=
      lexes_text true h
    rw [List.append_nil] at hlexes
    have hnext := (Ready.of_fresh (b := {}) rfl).next (t := .text s) (by simp)
    obtain ⟨p, hscan⟩ := (Reads.one hlexes hnext).scanned
    exact hscan

end Homoicon.Source
