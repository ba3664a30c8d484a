import Homoicon.Proofs.Rereading
import Homoicon.Proofs.Tokens
import Homoicon.Session

/-!
# Scanning line by line

The end of a line ends every token, every comment and every path, so a text that scans can be put
before any other on lines of its own: the units of the second text come behind its units, and an
error of the second text is only found some lines further down.
-/

namespace Homoicon.Source

/-! ### Further down -/

def Position.lower (n : Nat) (p : Position) : Position := ⟨p.line + n, p.column⟩

def ScanError.lower (n : Nat) (e : ScanError) : ScanError := ⟨e.cause, e.position.lower n⟩

def Cursor.lower (n : Nat) (k : Cursor) : Cursor := ⟨k.rest, k.position.lower n⟩

def Spanned.lower (n : Nat) (t : Spanned) : Spanned := { t with position := t.position.lower n }

/-- What a reader that begins `n` lines further down finds instead. -/
def lowered {α : Type} (n : Nat) (f : Except ScanError (α × Cursor)) : Except ScanError (α × Cursor) :=
  (f.mapError (ScanError.lower n)).map fun r => (r.1, r.2.lower n)

section

variable (n : Nat) (p : Position)

theorem Position.after_lower (c : Char) : (p.lower n).after c = (p.after c).lower n := by
  by_cases hc : c = '\n'
  · simp [Position.after, Position.lower, hc]
    omega
  · simp [Position.after, Position.lower, hc]

theorem Position.afterAll_lower (cs : List Char) :
    (p.lower n).afterAll cs = (p.afterAll cs).lower n := by
  induction cs generalizing p with
  | nil => rfl
  | cons c cs ih => rw [Position.afterAll_cons, Position.after_lower, ih, Position.afterAll_cons]

theorem lowered_push (c : Char) (f : Found) :
    lowered n (Found.push c f) = Found.push c (lowered n f) := by
  cases f <;> rfl

theorem lowered_token (make : String → Token) (f : Found) :
    lowered n (f.token make) = Found.token make (lowered n f) := by
  cases f <;> rfl

theorem readText_lower (cs : List Char) : readText cs (p.lower n) = lowered n (readText cs p) := by
  fun_induction readText cs p with
  | case1 => rfl
  | case2 cs p =>
    rw [readText.eq_def]
    simp only [if_true, Position.after_lower]
    rfl
  | case3 cs p hquote =>
    rw [readText.eq_def]
    simp only [hquote, if_false, if_true, Position.after_lower]
    rfl
  | case4 c p hquote hline hescape =>
    rw [readText.eq_def]
    simp only [hquote, hline, hescape, if_false, if_true, Position.after_lower]
    rfl
  | case5 c p hquote hline hescape d ds ih =>
    rw [readText_escape hescape, Position.after_lower, Position.after_lower, ih, lowered_push]
  | case6 c cs p hquote hline hescape ih =>
    rw [readText_plain hquote hline hescape, Position.after_lower, ih, lowered_push]

theorem readBraced_lower (depth : Nat) (cs : List Char) :
    readBraced depth cs (p.lower n) = lowered n (readBraced depth cs p) := by
  fun_induction readBraced depth cs p with
  | case1 => rfl
  | case2 depth cs p ih => rw [readBraced_open, Position.after_lower, ih, lowered_push]
  | case3 cs p hopen =>
    rw [readBraced.eq_def]
    simp only [Char.reduceEq, if_false, if_true, Position.after_lower]
    rfl
  | case4 depth cs p hdepth hopen ih =>
    rw [readBraced_close hdepth, Position.after_lower, ih, lowered_push]
  | case5 depth p hopen hclose =>
    rw [readBraced.eq_def]
    simp only [Char.reduceEq, if_false, if_true, Position.after_lower]
    rfl
  | case6 depth p d ds hopen hclose ih =>
    rw [readBraced_escape, Position.after_lower, Position.after_lower, ih, lowered_push]
  | case7 depth c cs p hopen hclose hescape ih =>
    rw [readBraced_plain hopen hclose hescape, Position.after_lower, ih, lowered_push]

theorem readTag_lower (cs : List Char) : readTag cs (p.lower n) = lowered n (readTag cs p) := by
  fun_induction readTag cs p with
  | case1 => rfl
  | case2 cs p =>
    simp only [readTag, if_true, Position.after_lower]
    rfl
  | case3 c cs p hclose hblank =>
    simp only [readTag, hclose, hblank, if_false, if_true, Position.after_lower]
    rfl
  | case4 c cs p hclose hblank ih =>
    rw [readTag_plain hclose hblank, Position.after_lower, ih, lowered_push]

theorem readToken_lower (cs : List Char) :
    readToken ⟨cs, p.lower n⟩ = lowered n (readToken ⟨cs, p⟩) := by
  cases cs with
  | nil => rfl
  | cons c cs =>
    simp only [readToken_cons, Position.after_lower, readText_lower, readBraced_lower, readTag_lower,
      ← lowered_token]
    simp only [apply_ite (lowered n)]
    simp only [readRun, Position.afterAll_lower]
    rfl

end

theorem Splits.lower {p : Position} {cs : List Char} {ts : List Spanned} {fault : Option ScanError}
    (h : Splits p cs ts fault) (n : Nat) :
    Splits (p.lower n) cs (ts.map (Spanned.lower n)) (fault.map (ScanError.lower n)) := by
  induction h with
  | @last p cs h =>
    have hsplits := Splits.last (p := p.lower n) h
    rwa [Position.afterAll_lower] at hsplits
  | @fault p gap rest e hgap hbegins he =>
    refine .fault hgap hbegins ?_
    rw [Position.afterAll_lower, readToken_lower, he]
    rfl
  | @token p gap cs rest t ts fault hgap h _ ih =>
    rw [← Position.afterAll_lower] at ih
    have hsplits := Splits.token hgap h ih
    rwa [Position.afterAll_lower] at hsplits

/-! ### Behind the end of a line -/

/-- Tokens of which the first has something before it. -/
def apart : List Spanned → List Spanned
  | [] => []
  | t :: ts => { t with joined := false } :: ts

theorem Trivia.append {atEnd : Bool} {cs ds : List Char} (h : Trivia false cs) (hds : Trivia atEnd ds) :
    Trivia atEnd (cs ++ ds) := by
  induction h with
  | nil => exact hds
  | blank hc _ ih => exact .blank hc ih
  | comment hbody _ ih =>
    rw [List.cons_append, List.append_assoc, List.cons_append]
    exact .comment hbody ih
  | openComment hend => cases hend

theorem Token.Ends.beforeLine {t : Token} {cs rest : List Char} (h : t.Ends cs rest)
    (below : List Char) : t.Ends cs (rest ++ '\n' :: below) := by
  cases rest with
  | nil =>
    cases t with
    | run s =>
      refine ⟨?_, fun _ => ?_, fun _ => ?_⟩
      · rintro _ ⟨⟩
        decide
      · have hopens : opensTag ['\n'] = false := by decide
        exact hopens
      · have hsilences : silences ['\n'] = false := by decide
        exact hsilences
    | atSign => cases h
    | _ => trivial
  | cons c rest =>
    cases t with
    | run s => exact h
    | atSign => exact h
    | _ => trivial

/-- Blanks and comments before a text only tell its first token apart. -/
theorem Splits.behind {p : Position} {gap cs : List Char} {ts : List Spanned}
    {fault : Option ScanError} (hgap : Trivia false gap) (hne : gap ≠ [])
    (h : Splits (p.afterAll gap) cs ts fault) : Splits p (gap ++ cs) (apart ts) fault := by
  have hfilled : ∀ ds, (gap ++ ds).isEmpty = false := by simp [hne]
  generalize hp : p.afterAll gap = p' at h
  cases h with
  | last h =>
    have hsplits := Splits.last (p := p) (hgap.append h)
    rw [hfilled, Position.afterAll_append, hp] at hsplits
    exact hsplits
  | @fault _ inner rest e hinner hbegins he =>
    rw [← List.append_assoc]
    refine .fault (hgap.append hinner) hbegins ?_
    rw [Position.afterAll_append, hp]
    exact he
  | @token _ inner cs rest t ts fault hinner h hrest =>
    rw [← hp, ← Position.afterAll_append, ← List.append_assoc] at hrest
    have hsplits := Splits.token (hgap.append hinner) h hrest
    rw [hfilled, Position.afterAll_append, hp, List.append_assoc] at hsplits
    exact hsplits

/-- Behind the end of its last line, a text goes on as the text below does. -/
theorem Splits.above {p : Position} {cs below : List Char} {ts ts' : List Spanned}
    {fault fault' : Option ScanError} (h : Splits p cs ts fault) (hfault : fault = none)
    (hbelow : Splits (p.afterAll (cs ++ ['\n'])) below ts' fault') :
    ∃ units last, ts = units ++ [last] ∧ last.token = .endOfInput ∧
      (∀ t ∈ units, t.token ≠ .endOfInput) ∧
      Splits p (cs ++ '\n' :: below) (units ++ apart ts') fault' := by
  induction h with
  | @last p cs h =>
    refine ⟨[], _, rfl, rfl, by simp, ?_⟩
    have hsplits := hbelow.behind h.endLine (by simp)
    rwa [List.append_assoc] at hsplits
  | fault => cases hfault
  | @token p gap cs rest t ts fault hgap h _ ih =>
    have hassoc : gap ++ (cs ++ rest) ++ ['\n'] = gap ++ cs ++ (rest ++ ['\n']) := by
      simp only [List.append_assoc]
    rw [hassoc, Position.afterAll_append] at hbelow
    obtain ⟨units, last, rfl, hlast, hunits, hsplits⟩ := ih hfault hbelow
    refine ⟨_ :: units, last, rfl, hlast, List.forall_mem_cons.2 ⟨h.notEnd, hunits⟩, ?_⟩
    have hline := Splits.token hgap (h.before (h.ends.beforeLine below)) hsplits
    simpa only [List.append_assoc, List.cons_append] using hline

/-! ### Behind units that are built -/

def layersBehind (older : List Value) : List Layer → List Layer
  | [] => []
  | [layer] => [{ layer with items := layer.items ++ older }]
  | layer :: layers => layer :: layersBehind older layers

namespace Builder

/-- The same builder with units before everything that it holds, the last of them first. -/
def behind (older : List Value) (b : Builder) : Builder :=
  { b with
    items := if b.layers.isEmpty then b.items ++ older else b.items
    layers := layersBehind older b.layers }

variable {older : List Value} {b : Builder}

theorem emit_behind (v : Value) : (b.behind older).emit v = (b.emit v).behind older := by
  rcases b with ⟨items, marks, pieces, _ | ⟨layer, layers⟩⟩ <;> rfl

theorem openLayer_behind (bracket : Bracket) :
    (b.behind older).openLayer bracket = (b.openLayer bracket).behind older := by
  rcases b with ⟨items, marks, pieces, _ | ⟨layer, layers⟩⟩ <;> rfl

theorem closeLayer_behind (bracket : Bracket) :
    (b.behind older).closeLayer bracket = (b.closeLayer bracket).map (behind older) := by
  rcases b with ⟨items, _ | ⟨mark, marks⟩, pieces, _ | ⟨layer, _ | ⟨outer, layers⟩⟩⟩
  case nil.cons.nil | nil.cons.cons =>
    simp only [closeLayer, behind, layersBehind]
    split
    · cases bracket <;> rfl
    · rfl
  all_goals rfl

theorem finishPieces_behind :
    (b.behind older).finishPieces = b.finishPieces.map (behind older) := by
  rcases b with ⟨items, marks, _ | ⟨piece, pieces⟩, layers⟩
  · rfl
  · simp only [finishPieces, behind]
    cases piecesValue (piece :: pieces) with
    | error e => rfl
    | ok v => exact congrArg Except.ok (emit_behind (b := ⟨items, marks, piece :: pieces, layers⟩) v)

theorem begin_behind (t : Token) :
    (b.behind older).begin t = (b.begin t).map (behind older) := by
  cases t with
  | opening bracket => exact congrArg Except.ok (openLayer_behind bracket)
  | closing bracket => exact closeLayer_behind bracket
  | text s => exact congrArg Except.ok (emit_behind _)
  | tag s => exact congrArg Except.ok (emit_behind _)
  | comma => exact congrArg Except.ok (emit_behind _)
  | _ => rfl

theorem extend_behind (t : Token) : (b.behind older).extend t = (b.extend t).behind older := by
  cases t with
  | opening bracket => exact openLayer_behind bracket
  | _ => rfl

theorem next_behind (t : Spanned) : (b.behind older).next t = (b.next t).map (behind older) := by
  have hcontinues : (b.behind older).continues t = b.continues t := rfl
  unfold next
  rw [hcontinues]
  split
  · exact congrArg Except.ok (extend_behind t.token)
  · rw [finishPieces_behind]
    cases b.finishPieces with
    | error e => rfl
    | ok b =>
      have hquote : (b.behind older).checkQuote t = b.checkQuote t := rfl
      simp only [Except.map, bind, Except.bind, hquote]
      cases b.checkQuote t with
      | error e => rfl
      | ok _ => exact begin_behind t.token

theorem finish_behind (t : Spanned) :
    (b.behind older).finish t = (b.finish t).map (older.reverse ++ ·) := by
  unfold finish
  rw [finishPieces_behind]
  cases b.finishPieces with
  | error e => rfl
  | ok b =>
    have hquote : (b.behind older).checkQuote t = b.checkQuote t := rfl
    simp only [Except.map, bind, Except.bind, hquote]
    cases b.checkQuote t with
    | error e => rfl
    | ok _ =>
      rcases b with ⟨items, _ | ⟨mark, marks⟩, pieces, _ | ⟨layer, _ | ⟨outer, layers⟩⟩⟩
      · exact congrArg Except.ok List.reverse_append
      all_goals rfl

end Builder

theorem locate_map {α β : Type} (p : Position) (f : α → β) (x : Except ScanCause α) :
    locate p (x.map f) = (locate p x).map f := by
  cases x <;> rfl

theorem build_behind {ts : List Spanned} (hend : Token.endOfInput ∈ ts.map Spanned.token)
    (b : Builder) (older : List Value) :
    build (b.behind older) ts = (build b ts).map (older.reverse ++ ·) := by
  induction ts generalizing b with
  | nil => cases hend
  | cons t ts ih =>
    simp only [build]
    split
    · rw [Builder.finish_behind, locate_map]
    · rename_i hnot
      have htail := (List.mem_cons.1 hend).resolve_left (Ne.symm hnot)
      rw [Builder.next_behind, locate_map]
      cases locate t.position (b.next t) with
      | error e => rfl
      | ok b => exact ih htail b

theorem locate_lower {α : Type} (n : Nat) (p : Position) (x : Except ScanCause α) :
    locate (p.lower n) x = (locate p x).mapError (ScanError.lower n) := by
  cases x <;> rfl

/-- Where the tokens stand only shows in the place of an error. -/
theorem build_lower (n : Nat) (b : Builder) (ts : List Spanned) :
    build b (ts.map (Spanned.lower n)) = (build b ts).mapError (ScanError.lower n) := by
  induction ts generalizing b with
  | nil => rfl
  | cons t ts ih =>
    have hfinish : b.finish (t.lower n) = b.finish t := rfl
    have hnext : b.next (t.lower n) = b.next t := rfl
    have hposition : (t.lower n).position = t.position.lower n := rfl
    have htoken : (t.lower n).token = t.token := rfl
    simp only [List.map_cons, build, hfinish, hnext, hposition, htoken, locate_lower]
    split
    · rfl
    · cases locate t.position (b.next t) with
      | error e => rfl
      | ok b => exact ih b

theorem Builder.finishPieces_of_finish {b : Builder} {t : Spanned} {vs : List Value}
    (h : b.finish t = .ok vs) : b.finishPieces = .ok (({} : Builder).behind vs.reverse) := by
  obtain ⟨b₀, hpieces, h⟩ := except_bind_eq_ok.1 h
  obtain ⟨_, -, h⟩ := except_bind_eq_ok.1 h
  have hfresh : b₀.pieces = [] := by
    unfold finishPieces at hpieces
    split at hpieces
    · rename_i hnil
      cases hpieces
      exact hnil
    · obtain ⟨v, -, rfl⟩ := except_map_eq_ok.1 hpieces
      rfl
  rw [hpieces]
  rcases b₀ with ⟨items, _ | ⟨mark, marks⟩, pieces, _ | ⟨layer, layers⟩⟩
  case nil.nil =>
    cases hfresh
    cases h
    simp [behind, layersBehind]
  all_goals cases h

/-- Where a text could end, a token that is told apart begins as in an empty builder. -/
theorem Builder.next_apart {b : Builder} {last t : Spanned} {vs : List Value}
    (h : b.finish last = .ok vs) (ht : t.token ≠ .endOfInput) :
    b.next { t with joined := false } = (({} : Builder).next t).map (behind vs.reverse) := by
  have hready : Ready b false (({} : Builder).behind vs.reverse) :=
    ⟨finishPieces_of_finish h, rfl, nofun, by simp [behind]⟩
  have hempty : Ready {} t.joined {} := ⟨rfl, rfl, fun _ => rfl, by simp⟩
  rw [hready.next ht, hempty.next ht t.position, begin_behind]

theorem Builder.finish_apart {b : Builder} {last t : Spanned} {vs : List Value}
    (h : b.finish last = .ok vs) :
    b.finish { t with joined := false } = (({} : Builder).finish t).map (vs ++ ·) := by
  have hbehind : (({} : Builder).behind vs.reverse).finish { t with joined := false } =
      (({} : Builder).finish { t with joined := false }).map (vs.reverse.reverse ++ ·) :=
    finish_behind _
  unfold finish at hbehind ⊢
  rw [finishPieces_of_finish h]
  rw [List.reverse_reverse] at hbehind
  exact hbehind

theorem build_apart {units ts : List Spanned} {last : Spanned} {b : Builder} {vs : List Value}
    (hunits : ∀ t ∈ units, t.token ≠ .endOfInput) (hlast : last.token = .endOfInput)
    (h : build b (units ++ [last]) = .ok vs) (hend : Token.endOfInput ∈ ts.map Spanned.token) :
    build b (units ++ apart ts) = (build {} ts).map (vs ++ ·) := by
  induction units generalizing b with
  | nil =>
    have hfinish : b.finish last = .ok vs := by
      simp only [List.nil_append, build, hlast, if_true] at h
      cases hfinish : b.finish last <;> rw [hfinish] at h <;> cases h
      rfl
    cases ts with
    | nil => cases hend
    | cons t ts =>
      simp only [List.nil_append, apart, build]
      split
      · rw [Builder.finish_apart hfinish, locate_map]
      · rename_i hnot
        have htail := (List.mem_cons.1 hend).resolve_left (Ne.symm hnot)
        rw [Builder.next_apart hfinish hnot, locate_map]
        cases locate t.position (({} : Builder).next t) with
        | error e => rfl
        | ok b =>
          have hbehind := build_behind htail b vs.reverse
          rwa [List.reverse_reverse] at hbehind
  | cons t units ih =>
    obtain ⟨ht, hunits⟩ := List.forall_mem_cons.1 hunits
    simp only [List.cons_append, build, ht, if_false] at h ⊢
    cases hnext : locate t.position (b.next t) with
    | error e =>
      rw [hnext] at h
      cases h
    | ok b =>
      rw [hnext] at h
      exact ih hunits h

/-! ### Lines -/

theorem Position.afterAll_line (p : Position) (cs : List Char) :
    p.afterAll (cs ++ ['\n']) = ⟨p.line + (1 + cs.count '\n'), 1⟩ := by
  have hline : (p.afterAll cs).after '\n' = ⟨(p.afterAll cs).line + 1, 1⟩ := rfl
  rw [Position.afterAll_append, Position.afterAll_cons, hline, Position.line_afterAll]
  simp only [Position.afterAll_nil, Position.mk.injEq, and_true]
  omega

theorem Splits.endOfInput_mem {p : Position} {cs : List Char} {ts : List Spanned}
    {fault : Option ScanError} (h : Splits p cs ts fault) (hfault : fault = none) :
    Token.endOfInput ∈ ts.map Spanned.token := by
  induction h with
  | last => exact List.mem_cons_self
  | fault => cases hfault
  | token _ _ _ ih => exact List.mem_cons_of_mem _ (ih hfault)

theorem scan_below {above : String} {vs : List Value} (h : scan above = .ok vs) (below : String) :
    scan (above ++ "\n" ++ below) =
      ((scan below).mapError (ScanError.lower (1 + above.toList.count '\n'))).map (vs ++ ·) := by
  obtain ⟨tokens, htokens, hbuild⟩ := except_bind_eq_ok.1 h
  have habove := tokenize_eq_ok_iff.1 htokens
  have hplace : ({} : Position).afterAll (above.toList ++ ['\n']) =
      Position.lower (1 + above.toList.count '\n') {} := Position.afterAll_line _ _
  have hchars : (above ++ "\n" ++ below).toList = above.toList ++ '\n' :: below.toList := by simp
  unfold scan
  cases hbelow : tokenize below with
  | error e =>
    obtain ⟨ts, hts⟩ := tokenize_eq_error_iff.1 hbelow
    have hlower := hts.lower (1 + above.toList.count '\n')
    rw [← hplace] at hlower
    obtain ⟨units, last, -, -, -, hsplits⟩ := habove.above rfl hlower
    rw [← hchars] at hsplits
    rw [tokenize_eq_error_iff.2 ⟨_, hsplits⟩]
    rfl
  | ok ts =>
    have hts := tokenize_eq_ok_iff.1 hbelow
    have hlower := hts.lower (1 + above.toList.count '\n')
    rw [← hplace] at hlower
    obtain ⟨units, last, rfl, hlast, hunits, hsplits⟩ := habove.above rfl hlower
    have hend := hlower.endOfInput_mem rfl
    rw [← hchars] at hsplits
    rw [tokenize_eq_ok_iff.2 hsplits]
    exact (build_apart hunits hlast hbuild hend).trans (by rw [build_lower]; rfl)

end Homoicon.Source

namespace Homoicon

open Source

theorem unitsOfItems_texts {texts : List String} (h : ∀ t ∈ texts, ∃ vs, scan t = .ok vs) :
    ∃ units, scan ("\n".intercalate texts) = .ok units ∧
      Feed.unitsOfItems (texts.map .text) = .ok units := by
  induction texts with
  | nil => exact ⟨[], rfl, rfl⟩
  | cons t texts ih =>
    obtain ⟨⟨vs, hvs⟩, htexts⟩ := List.forall_mem_cons.1 h
    obtain ⟨units, hscan, hunits⟩ := ih htexts
    refine ⟨vs ++ units, ?_, by simp [Feed.unitsOfItems, FeedItem.units, hvs, hunits, bind, Except.bind,
      pure, Except.pure]⟩
    cases texts with
    | nil =>
      cases hunits
      rw [String.intercalate_singleton, hvs, List.append_nil]
    | cons u texts =>
      rw [String.intercalate_cons_cons, scan_below hvs, hscan]
      rfl

theorem unitsOfItems_error {before after : List FeedItem} {item : FeedItem} {e : ScanError}
    (hbefore : ∀ i ∈ before, ∃ vs, i.units = .ok vs) (he : item.units = .error e) :
    Feed.unitsOfItems (before ++ item :: after) = .error e := by
  induction before with
  | nil =>
    rw [List.nil_append, Feed.unitsOfItems, he]
    rfl
  | cons first before ih =>
    obtain ⟨⟨vs, hvs⟩, hbefore⟩ := List.forall_mem_cons.1 hbefore
    rw [List.cons_append, Feed.unitsOfItems, hvs, ih hbefore]
    rfl

/-- Scanning goes line by line.  Below a text that scans, a text scans to its own units behind those
of the first, or fails with its own error on the line where that now stands.  So texts that a host
supplies one by one are read as the lines of one text, and if one of them has no reading, nothing
is run. -/
theorem scan_compositional :
    (∀ above below vs, scan above = .ok vs →
      (∀ ws, scan below = .ok ws → scan (above ++ "\n" ++ below) = .ok (vs ++ ws)) ∧
      ∀ e, scan below = .error e → scan (above ++ "\n" ++ below) =
        .error ⟨e.cause, ⟨e.position.line + (1 + above.toList.count '\n'), e.position.column⟩⟩) ∧
    (∀ texts : List String, (∀ t ∈ texts, ∃ vs, scan t = .ok vs) →
      ∃ units, scan ("\n".intercalate texts) = .ok units ∧
        Feed.unitsOfItems (texts.map .text) = .ok units) ∧
    ∀ (s : Session) before t after e, (∀ item ∈ before, ∃ vs, FeedItem.units item = .ok vs) →
      scan t = .error e → s.evalItems (before ++ .text t :: after) = (.error (.scan e), s) := by
  refine ⟨fun above below vs h => ⟨fun ws hws => ?_, fun e he => ?_⟩, fun texts => unitsOfItems_texts,
    fun s before t after e hbefore he => ?_⟩
  · rw [scan_below h, hws]
    rfl
  · rw [scan_below h, he]
    rfl
  · have hitem : FeedItem.units (.text t) = .error e := he
    rw [Session.evalItems, unitsOfItems_error hbefore hitem]

theorem scan_compositional_at :
    scan "a\n@\n(b)" = .ok [.word "a", .word "@", .group [.word "b"]] ∧
    scan "a\n@\n \n )" = .error ⟨.unexpectedClose .round, ⟨4, 2⟩⟩ ∧
    (∃ units, scan "a\n@\n(b)" = .ok units ∧
      Feed.unitsOfItems [.text "a\n@", .text "(b)"] = .ok units) ∧
    ∀ s : Session, s.evalItems [.code (.word "a"), .text " \n )", .text "b"] =
      (.error (.scan ⟨.unexpectedClose .round, ⟨2, 2⟩⟩), s) := by
  have habove : scan "a\n@" = .ok [.word "a", .word "@"] := rfl
  have hbelow : scan "(b)" = .ok [.group [.word "b"]] := rfl
  have herror : scan " \n )" = .error ⟨.unexpectedClose .round, ⟨2, 2⟩⟩ := rfl
  refine ⟨(scan_compositional.1 "a\n@" "(b)" _ habove).1 _ hbelow,
    (scan_compositional.1 "a\n@" " \n )" _ habove).2 _ herror,
    scan_compositional.2.1 ["a\n@", "(b)"] ?_, fun s =>
    scan_compositional.2.2 s [.code (.word "a")] " \n )" [.text "b"] _ ?_ herror⟩
  · rintro _ (_ | ⟨_, _ | ⟨_, ⟨⟩⟩⟩)
    · exact ⟨_, habove⟩
    · exact ⟨_, hbelow⟩
  · rintro _ (_ | ⟨_, ⟨⟩⟩)
    exact ⟨_, rfl⟩

end Homoicon
