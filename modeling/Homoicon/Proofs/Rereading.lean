import Homoicon.Proofs.Formed
import Homoicon.Proofs.Spelling

/-!
# Reading back what is written

A scanned value that is faithful is scanned again from its written form.  Reading is followed token
by token: what a builder does with the written form of a value does not depend on where the form
stands, as long as a blank or a closing bracket comes after it.
-/

namespace Homoicon

mutual

/-- Whether the written form of a value shows all of it.  A decimal may be written like an integer;
the mark of a path is lost next to a group. -/
def Value.isFaithful : Value → Bool
  | .decimal _ => false
  | .text s => s.toList.all Text.isFaithful
  | .block items | .group items | .path items => Value.areFaithful items
  | .setPath items =>
    (match items.getLast? with | some (.group _) => false | _ => true) && Value.areFaithful items
  | .getPath items =>
    (match items.head? with | some (.group _) => false | _ => true) && Value.areFaithful items
  | .sym payload | .quoted payload => payload.isFaithful
  | _ => true

def Value.areFaithful : List Value → Bool
  | [] => true
  | v :: vs => v.isFaithful && Value.areFaithful vs

end

theorem Value.areFaithful_iff {vs : List Value} :
    Value.areFaithful vs = true ↔ ∀ v ∈ vs, v.isFaithful = true := by
  induction vs with
  | nil => simp [Value.areFaithful]
  | cons v vs ih => simp [Value.areFaithful, ih]

namespace Source

/-! ### Reading token by token -/

/-- The tokens of a text, read one after the other, take a builder from `b` to `b'`. -/
inductive Reads : Builder → List Char → Builder → List Char → Prop
  | refl (b : Builder) (cs : List Char) : Reads b cs b cs
  | step {b b₁ b' : Builder} {cs cs₁ rest : List Char} {joined : Bool} {t : Token} :
    Lexes cs joined t cs₁ → (∀ p, b.next ⟨t, p, joined⟩ = .ok b₁) → Reads b₁ cs₁ b' rest →
      Reads b cs b' rest

theorem Reads.trans {b b₁ b' : Builder} {cs cs₁ rest : List Char} (h₁ : Reads b cs b₁ cs₁)
    (h₂ : Reads b₁ cs₁ b' rest) : Reads b cs b' rest := by
  induction h₁ with
  | refl => exact h₂
  | step hlex hnext _ ih => exact .step hlex hnext (ih h₂)

theorem Reads.one {b b' : Builder} {cs rest : List Char} {joined : Bool} {t : Token}
    (hlex : Lexes cs joined t rest) (hnext : ∀ p, b.next ⟨t, p, joined⟩ = .ok b') :
    Reads b cs b' rest := .step hlex hnext (.refl b' rest)

theorem next_endOfInput (b b' : Builder) (p : Position) (joined : Bool) :
    b.next ⟨.endOfInput, p, joined⟩ ≠ .ok b' := by
  intro h
  unfold Builder.next at h
  split at h
  · rename_i hcontinues
    simp [Builder.continues] at hcontinues
  · obtain ⟨b₁, -, h⟩ := except_bind_eq_ok.1 h
    obtain ⟨_, -, h⟩ := except_bind_eq_ok.1 h
    cases h

theorem Reads.tokens {b b' : Builder} {cs : List Char} (h : Reads b cs b' []) {fuel : Nat}
    (hfuel : cs.length < fuel) (p : Position) : ∃ tokens p',
      lexFrom fuel ⟨cs, p⟩ = ⟨tokens, none⟩ ∧
        build b tokens = build b' [⟨.endOfInput, p', true⟩] := by
  generalize hrest : ([] : List Char) = rest at h
  induction h generalizing fuel p with
  | refl b cs =>
    subst hrest
    obtain ⟨fuel, rfl⟩ : ∃ k, fuel = k + 1 := ⟨fuel - 1, by omega⟩
    refine ⟨[⟨.endOfInput, p, true⟩], p, ?_, rfl⟩
    simp [lexFrom, nextToken, skipTrivia, readToken, Except.map]
  | @step b b₁ b' cs cs₁ rest joined t hlex hnext _ ih =>
    obtain ⟨hlen, hlex⟩ := hlex
    obtain ⟨fuel, rfl⟩ : ∃ k, fuel = k + 1 := ⟨fuel - 1, by omega⟩
    obtain ⟨p₁, p₂, htoken⟩ := hlex p
    have hend : t ≠ .endOfInput := by
      rintro rfl
      exact next_endOfInput b b₁ p joined (hnext p)
    have hshort : cs₁.length < fuel := by omega
    obtain ⟨tokens, p', hlexed, hbuild⟩ := ih hshort p₂ hrest
    refine ⟨⟨t, p₁, joined⟩ :: tokens, p', ?_, ?_⟩
    · simp only [lexFrom, htoken, hend, if_false, hlexed]
    · rw [build]
      simp only [hend, if_false, hnext, locate]
      exact hbuild

/-! ### Where a unit can begin -/

/-- A unit that begins here is put into `b₀`. -/
structure Ready (b : Builder) (joined : Bool) (b₀ : Builder) : Prop where
  finishes : b.finishPieces = .ok b₀
  fresh : b₀.pieces = []
  apart : joined = true → b.pieces = []
  quote : joined = false → b₀.marks.head? ≠ some .quote

theorem Ready.of_fresh {b : Builder} (h : b.pieces = []) : Ready b true b where
  finishes := by simp [Builder.finishPieces, h]
  fresh := h
  apart _ := h
  quote h := by cases h

theorem Ready.next {b b₀ : Builder} {joined : Bool} (h : Ready b joined b₀) {t : Token}
    (ht : t ≠ .endOfInput) (p : Position) : b.next ⟨t, p, joined⟩ = b₀.begin t := by
  have hcontinues : b.continues ⟨t, p, joined⟩ = false := by
    cases joined with
    | false => rfl
    | true => simp [Builder.continues, h.apart rfl]
  have hquote : b₀.checkQuote ⟨t, p, joined⟩ = .ok () := by
    unfold Builder.checkQuote
    cases joined with
    | false => simp [h.quote rfl]
    | true => simp [ht]
  unfold Builder.next
  rw [hcontinues, h.finishes]
  simp only [Bool.false_eq_true, if_false, bind, Except.bind, hquote]

/-- Wherever a unit can begin, the written form of `v` is read as `v`. -/
def Rereads (v : Value) : Prop :=
  ∀ b b₀ joined rest, Ready b joined b₀ → Stops rest →
    ∃ b', Reads b (gap joined ++ (v.chars ++ rest)) b' rest ∧ b'.finishPieces = .ok (b₀.emit v)

section

variable {rest : List Char} (h : Stops rest)
include h

theorem Stops.delimiter : ∀ c ∈ rest.head?, isDelimiter c = true := by
  obtain ⟨c, r, rfl, hc⟩ := h
  rintro d hd
  cases hd
  rcases hc with rfl | rfl | rfl <;> decide

theorem Stops.opensTag : opensTag rest = false := by
  obtain ⟨c, r, rfl, hc⟩ := h
  rcases hc with rfl | rfl | rfl <;> rfl

theorem Stops.silences : silences rest = false := by
  obtain ⟨c, r, rfl, hc⟩ := h
  rcases hc with rfl | rfl | rfl <;> rfl

end

def spaced (vs : List Value) : List Char := vs.flatMap fun v => ' ' :: v.chars

theorem spaced_stops {rest : List Char} (h : Stops rest) (vs : List Value) :
    Stops (spaced vs ++ rest) := by
  cases vs with
  | nil => exact h
  | cons v vs => exact ⟨' ', _, rfl, .inl rfl⟩

theorem reads_spaced {vs : List Value} (hvs : ∀ v ∈ vs, Rereads v) {b b₀ : Builder}
    (hb : b.finishPieces = .ok b₀) (hfresh : b₀.pieces = []) (hmarks : b₀.marks = [])
    {rest : List Char} (hrest : Stops rest) :
    ∃ b', Reads b (spaced vs ++ rest) b' rest ∧
      b'.finishPieces = .ok { b₀ with items := vs.reverse ++ b₀.items } := by
  induction vs generalizing b b₀ with
  | nil => exact ⟨b, .refl b rest, hb⟩
  | cons v vs ih =>
    obtain ⟨hv, hvs⟩ := List.forall_mem_cons.1 hvs
    have hready : Ready b false b₀ := ⟨hb, hfresh, nofun, by simp [hmarks]⟩
    obtain ⟨b₁, hread, hfinish⟩ := hv _ _ _ _ hready (spaced_stops hrest vs)
    obtain ⟨b', hreads, hfinishes⟩ := ih hvs hfinish rfl rfl
    refine ⟨b', ?_, ?_⟩
    · have hchars : spaced (v :: vs) ++ rest = gap false ++ (v.chars ++ (spaced vs ++ rest)) := by
        simp [spaced, gap]
      rw [hchars]
      exact hread.trans hreads
    · rw [hfinishes]
      simp [Builder.emit, hmarks, hfresh]

/-- The units between two brackets, with a blank between each two. -/
def innerText (vs : List Value) : List Char := [' '].intercalate (vs.map Value.chars)

theorem reads_layer {vs : List Value} (hvs : ∀ v ∈ vs, Rereads v) {b b' : Builder} {bracket : Bracket}
    (hclose : Builder.closeLayer { b.openLayer bracket with items := vs.reverse } bracket = .ok b')
    (rest : List Char) :
    Reads (b.openLayer bracket) (innerText vs ++ (bracket.closeText.toList ++ rest)) b' rest := by
  have hstops : Stops (bracket.closeText.toList ++ rest) := by
    cases bracket
    · exact ⟨']', rest, rfl, .inr (.inl rfl)⟩
    · exact ⟨')', rest, rfl, .inr (.inr rfl)⟩
  have hinner : ∃ b₁, Reads (b.openLayer bracket) (innerText vs ++ (bracket.closeText.toList ++ rest))
      b₁ (bracket.closeText.toList ++ rest) ∧
      b₁.finishPieces = .ok { b.openLayer bracket with items := vs.reverse } := by
    cases vs with
    | nil => exact ⟨_, .refl _ _, rfl⟩
    | cons v vs =>
      obtain ⟨hv, hvs⟩ := List.forall_mem_cons.1 hvs
      have hready : Ready (b.openLayer bracket) true (b.openLayer bracket) := .of_fresh rfl
      obtain ⟨b₁, hread, hfinish⟩ := hv _ _ _ _ hready (spaced_stops hstops vs)
      obtain ⟨b₂, hreads, hfinishes⟩ := reads_spaced hvs hfinish rfl rfl hstops
      refine ⟨b₂, ?_, ?_⟩
      · have hchars : innerText (v :: vs) ++ (bracket.closeText.toList ++ rest) =
            gap true ++ (v.chars ++ (spaced vs ++ (bracket.closeText.toList ++ rest))) := by
          rw [innerText, List.map_cons, intercalate_cons_eq, List.flatMap_map]
          simp [spaced, gap]
        rw [hchars]
        exact hread.trans hreads
      · rw [hfinishes]
        simp [Builder.emit, Builder.openLayer]
  obtain ⟨b₁, hreads, hfinish⟩ := hinner
  refine hreads.trans (.one (lexes_closing bracket) fun p => ?_)
  have hcontinues : b₁.continues ⟨.closing bracket, p, true⟩ = false := by
    simp [Builder.continues]
  unfold Builder.next
  rw [hcontinues, hfinish]
  exact hclose

theorem chars_block (items : List Value) (rest : List Char) :
    (Value.block items).chars ++ rest =
      Bracket.square.openText.toList ++ (innerText items ++ (Bracket.square.closeText.toList ++ rest)) := by
  simp [Value.chars, Value.mold, Value.molds_eq_map, String.toList_intercalate, innerText,
    Bracket.openText, Bracket.closeText]
  rfl

theorem chars_group (items : List Value) (rest : List Char) :
    (Value.group items).chars ++ rest =
      Bracket.round.openText.toList ++ (innerText items ++ (Bracket.round.closeText.toList ++ rest)) := by
  simp [Value.chars, Value.mold, Value.molds_eq_map, String.toList_intercalate, innerText,
    Bracket.openText, Bracket.closeText]
  rfl

/-! ### Pieces -/

theorem reads_group {items : List Value} (hitems : ∀ v ∈ items, Rereads v) (b : Builder)
    (rest : List Char) :
    Reads (b.openLayer .round) (innerText items ++ (Bracket.round.closeText.toList ++ rest))
      { b with pieces := b.pieces ++ [.group items] } rest :=
  reads_layer hitems (by simp [Builder.closeLayer, Builder.openLayer]) rest

theorem lexes_piece {cs : List Char} {ps : List Piece} (hrun : IsRun cs)
    (hlinked : Linked (.run cs :: ps)) {rest : List Char} (hrest : Stops rest) (joined : Bool) :
    Lexes (gap joined ++ (cs ++ (piecesChars ps ++ rest))) joined (.run (String.ofList cs))
      (piecesChars ps ++ rest) := by
  match ps with
  | [] => exact lexes_run joined hrun hrest.delimiter hrest.opensTag fun _ => hrest.silences
  | .run ds :: ps => exact absurd hlinked.1 (by simp [Piece.Links])
  | .group items :: ps =>
    have hopening : ∃ ds, piecesChars (.group items :: ps) ++ rest = '(' :: ds := by
      rw [piecesChars, List.flatMap_cons, List.append_assoc, Piece.chars, chars_group]
      exact ⟨_, rfl⟩
    obtain ⟨ds, hds⟩ := hopening
    rw [hds]
    refine lexes_run joined hrun ?_ rfl ?_
    · rintro d hd
      cases hd
      decide
    · -- an at sign alone would silence the group, but a run before a group ends in a slash
      rintro rfl
      have hslash : ['@'].getLast? = some '/' := hlinked.1
      simp at hslash

theorem reads_pieces {qs : List Piece} {b : Builder} {last : Piece}
    (hlast : b.pieces.getLast? = some last) (hlinked : Linked (last :: qs))
    (hformed : ∀ p ∈ qs, p.Formed)
    (hgroups : ∀ group, Piece.group group ∈ qs → ∀ v ∈ group, Rereads v)
    {rest : List Char} (hrest : Stops rest) :
    Reads b (piecesChars qs ++ rest) { b with pieces := b.pieces ++ qs } rest := by
  -- runs and groups alternate, so each piece is linked to the last one of the builder
  induction qs generalizing b last with
  | nil =>
    rw [List.append_nil]
    exact .refl b rest
  | cons q qs ih =>
    obtain ⟨hq, hqs⟩ := List.forall_mem_cons.1 hformed
    have hone : Reads b (q.chars ++ (piecesChars qs ++ rest)) { b with pieces := b.pieces ++ [q] }
        (piecesChars qs ++ rest) := by
      cases q with
      | run cs =>
        cases last with
        | run ds => exact absurd hlinked.1 (by simp [Piece.Links])
        | group items =>
          have hslash : cs.head? = some '/' := hlinked.1
          have hrun : IsRun cs := by
            refine ⟨?_, hq, by simp [hslash], by simp [hslash], by simp [hslash]⟩
            rintro rfl
            cases hslash
          refine .one (lexes_piece hrun hlinked.2 hrest true) fun p => ?_
          have hcontinues : b.continues ⟨.run (String.ofList cs), p, true⟩ = true := by
            simp [Builder.continues, hlast, hslash]
          rw [Builder.next, if_pos hcontinues]
          simp [Builder.extend]
      | group items =>
        cases last with
        | group others => exact absurd hlinked.1 (by simp [Piece.Links])
        | run cs =>
          have hslash : cs.getLast? = some '/' := hlinked.1
          rw [Piece.chars, chars_group]
          refine .step (lexes_opening true .round) (fun p => ?_)
            (reads_group (hgroups items List.mem_cons_self) b _)
          have hcontinues : b.continues ⟨.opening .round, p, true⟩ = true := by
            simp [Builder.continues, hlast, hslash]
          rw [Builder.next, if_pos hcontinues]
          rfl
    have hothers := ih (b := { b with pieces := b.pieces ++ [q] }) (by simp) hlinked.2 hqs
      fun group hgroup => hgroups group (List.mem_cons_of_mem _ hgroup)
    rw [List.append_assoc, List.singleton_append] at hothers
    rw [piecesChars, List.flatMap_cons, List.append_assoc]
    exact hone.trans hothers

theorem Spells.rereads {pieces : List Piece} {items : List Value} {v : Value}
    (hs : Spells pieces items v)
    (hitems : ∀ group, Value.group group ∈ items → ∀ w ∈ group, Rereads w) : Rereads v := by
  intro b b₀ joined rest hready hrest
  -- the first piece begins the unit, the others go on with it
  have hgroups : ∀ group, Piece.group group ∈ pieces → ∀ w ∈ group, Rereads w :=
    fun group hgroup => hitems group (hs.groups group hgroup)
  have hreads : Reads b (gap joined ++ (piecesChars pieces ++ rest)) { b₀ with pieces } rest := by
    cases pieces with
    | nil => cases hs.value
    | cons p ps =>
      obtain ⟨-, hformed⟩ := List.forall_mem_cons.1 hs.path.formed
      have hfirst : Reads b (gap joined ++ (p.chars ++ (piecesChars ps ++ rest)))
          { b₀ with pieces := [p] } (piecesChars ps ++ rest) := by
        cases p with
        | run cs =>
          refine .one (lexes_piece (hs.path.begins cs ps rfl) hs.path.linked hrest joined) fun p => ?_
          rw [hready.next (by simp)]
          simp [Builder.begin]
        | group items =>
          rw [Piece.chars, chars_group]
          have hgroup := reads_group (hgroups items List.mem_cons_self) b₀ (piecesChars ps ++ rest)
          rw [hready.fresh] at hgroup
          exact .step (lexes_opening joined .round) (fun p => hready.next (by simp) p) hgroup
      have hothers := reads_pieces (b := { b₀ with pieces := [p] }) rfl hs.path.linked hformed
        (fun group hgroup => hgroups group (List.mem_cons_of_mem _ hgroup)) hrest
      rw [piecesChars, List.flatMap_cons, List.append_assoc]
      exact hfirst.trans hothers
  refine ⟨{ b₀ with pieces }, hs.chars ▸ hreads, ?_⟩
  cases pieces with
  | nil => cases hs.value
  | cons p ps =>
    simp only [Builder.finishPieces, hs.value]
    rfl

/-! ### Values -/

theorem rereads_written {v : Value} (h : v.IsWritten) : Rereads v :=
  (spells_written h).rereads (by simp)

theorem isWritten_integer (n : Int64) : (Value.integer n).IsWritten := by
  have hchars : (Value.integer n).chars = (integerText n).toList := rfl
  have hrun : IsRun ((integerText n).toList ++ []) := isRun_integer n (by simp)
  rw [List.append_nil] at hrun
  have hne : ∀ d, d ≠ '-' → d.isDigit = false → d ∉ (integerText n).toList :=
    fun d hminus hdigit hmem => integerText_ne hmem hminus hdigit rfl
  have hcontains : (integerText n).toList.contains '/' = false := by
    rw [← Bool.not_eq_true, List.contains_iff_mem]
    exact hne '/' (by decide) (by decide)
  have hread := readNumber?_integerText n
  refine ⟨hrun, ?_⟩
  rw [hchars]
  generalize (integerText n).toList = cs at hne hcontains hread ⊢
  unfold runValue
  split
  · exact absurd List.mem_cons_self (hne '_' (by decide) (by decide))
  · exact absurd List.mem_cons_self (hne '~' (by decide) (by decide))
  · exact absurd List.mem_cons_self (hne '/' (by decide) (by decide))
  · exact absurd List.mem_cons_self (hne '/' (by decide) (by decide))
  · exact absurd List.mem_cons_self (hne '/' (by decide) (by decide))
  · rw [hcontains, hread]
    rfl

theorem isWritten_blank : Value.blank.IsWritten :=
  ⟨⟨by decide, List.forall_mem_singleton.2 (by decide), by decide, by decide, by decide⟩, rfl⟩

theorem isWritten_void : Value.void.IsWritten :=
  ⟨⟨by decide, List.forall_mem_singleton.2 (by decide), by decide, by decide, by decide⟩, rfl⟩

theorem rereads_token {v : Value} {t : Token} (ht : t ≠ .endOfInput)
    (hlex : ∀ joined rest, Lexes (gap joined ++ (v.chars ++ rest)) joined t rest)
    (hbegin : ∀ b : Builder, b.begin t = .ok (b.emit v)) : Rereads v := by
  intro b b₀ joined rest hready _
  refine ⟨b₀.emit v, .one (hlex joined rest) fun p => ?_, rfl⟩
  rw [hready.next ht, hbegin]

theorem rereads_text {s : String} (h : ∀ c ∈ s.toList, Text.isFaithful c = true) :
    Rereads (.text s) :=
  rereads_token (t := .text s) (by simp) (fun joined _ => lexes_text joined h) fun _ => rfl

theorem rereads_tag {s : String} (h : IsTag s.toList) : Rereads (.tag s) := by
  refine rereads_token (t := .tag s) (by simp) (fun joined rest => ?_) fun _ => rfl
  have hlex : Lexes (gap joined ++ '<' :: (s.toList ++ '>' :: rest)) joined
      (.tag (String.ofList s.toList)) rest := lexes_tag joined h
  rw [String.ofList_toList] at hlex
  have hchars : (Value.tag s).chars ++ rest = '<' :: (s.toList ++ '>' :: rest) := by
    simp [Value.chars, Value.mold]
  rw [hchars]
  exact hlex

theorem rereads_comma : Rereads .comma :=
  rereads_token (t := .comma) (by simp) (fun joined _ => lexes_comma joined) fun _ => rfl

theorem reads_block {items : List Value} (h : ∀ v ∈ items, Rereads v) {b b₀ : Builder}
    {joined : Bool} (hready : Ready b joined b₀) (rest : List Char) :
    Reads b (gap joined ++ ((Value.block items).chars ++ rest)) (b₀.emit (.block items)) rest := by
  have hclose : Builder.closeLayer { b₀.openLayer .square with items := items.reverse } .square =
      .ok (b₀.emit (.block items)) := by
    simp [Builder.closeLayer, Builder.openLayer, Builder.emit]
  rw [chars_block]
  exact .step (lexes_opening joined .square) (fun p => hready.next (by simp) p)
    (reads_layer h hclose rest)

theorem rereads_block {items : List Value} (h : ∀ v ∈ items, Rereads v) : Rereads (.block items) :=
  fun _ _ _ rest hready _ => ⟨_, reads_block h hready rest, rfl⟩

theorem rereads_marked {v : Value} (hv : Rereads v) {m : Mark} {c : Char} {t : Token}
    (hchars : (m.apply v).chars = c :: v.chars) (ht : t ≠ .endOfInput)
    (hlex : ∀ joined rest, Lexes (gap joined ++ c :: (v.chars ++ rest)) joined t (v.chars ++ rest))
    (hbegin : ∀ b : Builder, b.begin t = .ok { b with marks := m :: b.marks }) :
    Rereads (m.apply v) := by
  intro b b₀ joined rest hready hrest
  have hmarked : Ready { b₀ with marks := m :: b₀.marks } true { b₀ with marks := m :: b₀.marks } :=
    .of_fresh hready.fresh
  obtain ⟨b', hreads, hfinish⟩ := hv _ _ _ _ hmarked hrest
  refine ⟨b', ?_, hfinish⟩
  rw [hchars]
  refine .step (hlex joined rest) (fun p => ?_) hreads
  rw [hready.next ht, hbegin]

theorem rereads_quoted {v : Value} (hv : Rereads v) : Rereads (.quoted v) :=
  rereads_marked (m := .quote) hv (by simp [Mark.apply, Value.chars, Value.mold]) (by simp)
    (fun joined _ => lexes_apostrophe joined) fun _ => rfl

theorem rereads_sym {v : Value} (hv : Rereads v) (hsilences : ∀ rest, silences (v.chars ++ rest) = true) :
    Rereads (.sym v) :=
  rereads_marked (m := .silence) hv (by simp [Mark.apply, Value.chars, Value.mold]) (by simp)
    (fun joined rest => lexes_atSign joined (hsilences rest)) fun _ => rfl

/-! ### What an at sign silences -/

theorem Spells.silences {pieces : List Piece} {items : List Value} {v : Value}
    (hs : Spells pieces items v) (rest : List Char) : silences (v.chars ++ rest) = true := by
  rw [← hs.chars]
  match pieces with
  | [] => cases hs.value
  | .group group :: ps =>
    rw [piecesChars, List.flatMap_cons, List.append_assoc, Piece.chars, chars_group]
    rfl
  | .run cs :: ps =>
    have hrun := hs.path.begins cs ps rfl
    obtain ⟨c, cs, rfl⟩ := List.exists_cons_of_ne_nil hrun.ne_nil
    have hc := hrun.word c List.mem_cons_self
    rw [piecesChars, List.flatMap_cons, Piece.chars]
    simp [Source.silences, hc]

theorem not_mem_decimal {items : List Value} (h : Value.areFaithful items = true) (x : Float) :
    Value.decimal x ∉ items := by
  intro hmem
  have hfaithful := Value.areFaithful_iff.1 h _ hmem
  cases hfaithful

theorem isFaithful_setPath {items : List Value} (h : (Value.setPath items).isFaithful = true) :
    (∀ group, items.getLast? ≠ some (.group group)) ∧ Value.areFaithful items = true := by
  rw [Value.isFaithful, Bool.and_eq_true] at h
  refine ⟨fun group hlast => ?_, h.2⟩
  rw [hlast] at h
  cases h.1

theorem isFaithful_getPath {items : List Value} (h : (Value.getPath items).isFaithful = true) :
    (∀ group, items.head? ≠ some (.group group)) ∧ Value.areFaithful items = true := by
  rw [Value.isFaithful, Bool.and_eq_true] at h
  refine ⟨fun group hfirst => ?_, h.2⟩
  rw [hfirst] at h
  cases h.1

theorem silences_of_formed {v : Value} (h : v.Formed) (hf : v.isFaithful = true)
    (hs : v.MayBeSilenced) (rest : List Char) : silences (v.chars ++ rest) = true := by
  cases v with
  | void => exact (spells_written isWritten_void).silences rest
  | blank => exact (spells_written isWritten_blank).silences rest
  | integer n => exact (spells_written (isWritten_integer n)).silences rest
  | word | setWord | getWord | refinement => exact (spells_written h).silences rest
  | block items =>
    rw [chars_block]
    rfl
  | group items => exact (spells_group h).silences rest
  | path items => exact (spells_path (not_mem_decimal hf) h).silences rest
  | setPath items =>
    obtain ⟨hlast, hitems⟩ := isFaithful_setPath hf
    obtain ⟨pieces, hpieces⟩ := spells_setPath (not_mem_decimal hitems) h hlast
    exact hpieces.silences rest
  | getPath items =>
    obtain ⟨hfirst, hitems⟩ := isFaithful_getPath hf
    obtain ⟨pieces, hpieces⟩ := spells_getPath (not_mem_decimal hitems) h hfirst
    exact hpieces.silences rest
  | tag s =>
    have hchars : (Value.tag s).chars ++ rest = '<' :: (s.toList ++ '>' :: rest) := by
      simp [Value.chars, Value.mold]
    rw [hchars]
    rfl
  | sym payload | quoted payload =>
    simp only [Value.chars, Value.mold, String.toList_append, List.append_assoc]
    rfl
  | decimal x => cases hf
  | text | comma => exact hs.elim
  | _ => exact h.elim

end Source

open Source

mutual

/-- What is formed and faithful is read back from its written form. -/
theorem Value.rereads : (v : Value) → v.Formed → v.isFaithful = true → Rereads v
  | .void, _, _ => rereads_written isWritten_void
  | .blank, _, _ => rereads_written isWritten_blank
  | .integer n, _, _ => rereads_written (isWritten_integer n)
  | .word _, h, _ | .setWord _, h, _ | .getWord _, h, _ | .refinement _, h, _ => rereads_written h
  | .text _, _, hf => rereads_text (List.all_eq_true.1 hf)
  | .tag _, h, _ => rereads_tag h
  | .comma, _, _ => rereads_comma
  | .block items, h, hf => rereads_block (Value.rereadsAll items h hf)
  | .group items, h, hf => by
    have hitems := Value.rereadsAll items h hf
    refine (spells_group h).rereads fun group hgroup => ?_
    obtain rfl : group = items := by simpa using hgroup
    exact hitems
  | .path items, h, hf =>
    (spells_path (not_mem_decimal hf) h).rereads (Value.rereadsSegments items h.2.2.2 hf)
  | .setPath items, h, hf => by
    obtain ⟨hlast, hitems⟩ := isFaithful_setPath hf
    obtain ⟨pieces, hpieces⟩ := spells_setPath (not_mem_decimal hitems) h hlast
    exact hpieces.rereads (Value.rereadsSegments items h.2.2 hitems)
  | .getPath items, h, hf => by
    obtain ⟨hfirst, hitems⟩ := isFaithful_getPath hf
    obtain ⟨pieces, hpieces⟩ := spells_getPath (not_mem_decimal hitems) h hfirst
    exact hpieces.rereads (Value.rereadsSegments items h.2.2 hitems)
  | .sym payload, h, hf =>
    rereads_sym (payload.rereads h.1 hf) (silences_of_formed h.1 hf h.2)
  | .quoted payload, h, hf => rereads_quoted (payload.rereads h hf)
  | .decimal _, _, hf => by cases hf
  | .null, h, _ | .logic _, h, _ | .datatype _, h, _ | .action _ _, h, _ | .varargs _ _, h, _
  | .frame _, h, _ | .error _ _, h, _ => h.elim

theorem Value.rereadsAll : (vs : List Value) → Value.FormedAll vs → Value.areFaithful vs = true →
    ∀ v ∈ vs, Rereads v
  | [], _, _ => by simp
  | v :: vs, h, hf => by
    rw [Value.areFaithful, Bool.and_eq_true] at hf
    exact List.forall_mem_cons.2 ⟨v.rereads h.1 hf.1, Value.rereadsAll vs h.2 hf.2⟩

theorem Value.rereadsSegments : (vs : List Value) → Value.FormedSegments vs →
    Value.areFaithful vs = true → ∀ group, Value.group group ∈ vs → ∀ w ∈ group, Rereads w
  | [], _, _ => by simp
  | v :: vs, h, hf => by
    rw [Value.areFaithful, Bool.and_eq_true] at hf
    intro group hgroup
    rcases List.mem_cons.1 hgroup with rfl | hmem
    · exact Value.rereadsAll group h.1 hf.1
    · exact Value.rereadsSegments vs h.2 hf.2 group hmem

end

theorem Source.Reads.scanned {s : String} {b : Builder} (h : Reads {} s.toList b []) :
    ∃ p, scan s = build b [⟨.endOfInput, p, true⟩] := by
  obtain ⟨tokens, p, hlex, hbuild⟩ := h.tokens (Nat.lt_succ_self _) {}
  have htokens : tokenize s = .ok tokens := by
    simp only [tokenize, lex, Cursor.start, hlex]
  refine ⟨p, ?_⟩
  rw [Source.scan, htokens]
  exact hbuild

/-- Scanning undoes molding on what was scanned, if all of it is faithful. -/
theorem Source.scan_mold {s : String} {vs : List Value} (h : scan s = .ok vs)
    (hf : Value.areFaithful vs = true) : scan (Value.block vs).mold = .ok [.block vs] := by
  have hvs := Value.rereadsAll vs (scan_formed h) hf
  have hreads := reads_block hvs (Ready.of_fresh (b := {}) rfl) []
  rw [List.append_nil] at hreads
  obtain ⟨p, hscan⟩ := hreads.scanned
  rw [hscan]
  rfl

theorem Source.scan_mold_mixed : ∃ vs,
    scan "a/(b c)/-2: '@<t> :f/(g)/h, \x7bq\x7d (/r _) <= @ // ~" = .ok vs ∧
      Value.areFaithful vs = true ∧
      (Value.block vs).mold = "[a/(b c)/-2: '@<t> :f/(g)/h , \"q\" (/r _) <= @ // ~]" ∧
      scan (Value.block vs).mold = .ok [.block vs] := by
  have hsource : (scan "a/(b c)/-2: '@<t> :f/(g)/h, \x7bq\x7d (/r _) <= @ // ~").toOption.map
      (fun vs => (Value.areFaithful vs, (Value.block vs).mold)) =
        some (true, "[a/(b c)/-2: '@<t> :f/(g)/h , \"q\" (/r _) <= @ // ~]") := by
    decide +kernel
  obtain ⟨vs, hvs, hpair⟩ := Option.map_eq_some_iff.1 hsource
  obtain ⟨hf, hmold⟩ := Prod.mk.inj hpair
  have hscan := except_toOption_eq_some.1 hvs
  exact ⟨vs, hscan, hf, hmold, scan_mold hscan hf⟩

end Homoicon
