import Homoicon.Proofs.Paths

/-!
# Formed values

Every unit that was scanned is formed: runs and pieces are, and the builder keeps what it holds
formed.
-/

namespace Homoicon.Source

/-! ### Runs -/

theorem isWritten_of_chars {cs : List Char} {v : Value} (hchars : v.chars = cs) (hrun : IsRun cs)
    (h : runValue cs = .ok v) : v.IsWritten := by
  subst hchars
  exact ⟨hrun, h⟩

theorem wordValue_formed {cs : List Char} (hrun : IsRun cs)
    (h : runValue cs = .ok (wordValue cs)) :
    (wordValue cs).Formed ∧ (wordValue cs).MayBeSilenced := by
  have hword : runValue cs = .ok (.word (String.ofList cs)) →
      (Value.word (String.ofList cs)).Formed ∧ (Value.word (String.ofList cs)).MayBeSilenced :=
    fun h => ⟨isWritten_of_chars String.toList_ofList hrun h, trivial⟩
  unfold wordValue at h ⊢
  by_cases hlen : 1 < cs.length
  · rw [if_pos hlen] at h ⊢
    cases hback : stripBack? ':' cs with
    | some name =>
      rw [hback] at h
      have hchars : (Value.setWord (String.ofList name)).chars = cs := by
        rw [stripBack?_eq_some hback]
        simp [Value.chars, Value.mold]
      exact ⟨isWritten_of_chars hchars hrun h, trivial⟩
    | none =>
      rw [hback] at h
      cases hfront : stripFront? ':' cs with
      | some name =>
        simp only [hfront] at h ⊢
        have hchars : (Value.getWord (String.ofList name)).chars = cs := by
          rw [stripFront?_eq_some hfront]
          simp [Value.chars, Value.mold]
        exact ⟨isWritten_of_chars hchars hrun h, trivial⟩
      | none =>
        simp only [hfront] at h ⊢
        exact hword h
  · rw [if_neg hlen] at h ⊢
    exact hword h

theorem runValue_formed {cs : List Char} (hrun : IsRun cs) {v : Value} (h : runValue cs = .ok v) :
    v.Formed ∧ v.MayBeSilenced := by
  have hvalue := h
  unfold runValue at h
  split at h
  · cases h
    exact ⟨trivial, trivial⟩
  · cases h
    exact ⟨trivial, trivial⟩
  · cases h
    exact ⟨⟨hrun, hvalue⟩, trivial⟩
  · cases h
    exact ⟨⟨hrun, hvalue⟩, trivial⟩
  · split at h
    · cases h
    · rename_i name _ _ _
      cases h
      have hchars : (Value.refinement (String.ofList name)).chars = '/' :: name := by
        simp [Value.chars, Value.mold]
      exact ⟨isWritten_of_chars hchars hrun hvalue, trivial⟩
  · split at h
    · exact (PathPieces.run hrun).assemblePath h
    · cases h
      cases hnumber : readNumber? cs with
      | some v =>
        obtain ⟨n, rfl⟩ | ⟨x, rfl⟩ := readNumber?_eq_some hnumber
        · exact ⟨trivial, trivial⟩
        · exact ⟨trivial, trivial⟩
      | none =>
        rw [hnumber] at hvalue
        exact wordValue_formed hrun hvalue

theorem PathPieces.value {pieces : List Piece} (hp : PathPieces pieces) {v : Value}
    (h : piecesValue pieces = .ok v) : v.Formed ∧ v.MayBeSilenced := by
  unfold piecesValue at h
  split at h
  · rename_i items
    cases h
    exact ⟨hp.formed (.group items) List.mem_cons_self, trivial⟩
  · exact runValue_formed (hp.begins _ [] rfl) h
  · exact hp.assemblePath h

/-! ### The builder -/

/-- Marks can be put before a formed value, unless an at sign would come next to a text or comma. -/
theorem foldl_marks_formed {marks : List Mark} {v : Value} (hv : v.Formed)
    (hsilent : marks.head? = some .silence → v.MayBeSilenced) :
    (marks.foldl (fun v m => m.apply v) v).Formed := by
  induction marks generalizing v with
  | nil => exact hv
  | cons m rest ih =>
    cases m with
    | quote => exact ih hv fun _ => trivial
    | silence => exact ih ⟨hv, hsilent rfl⟩ fun _ => trivial

namespace Builder

/-- What is open is formed; `silent` says that an at sign was read just before. -/
structure Formed (silent : Bool) (b : Builder) : Prop where
  items : Value.FormedAll b.items
  pieces : PathPieces b.pieces
  layers : ∀ l ∈ b.layers, Value.FormedAll l.items ∧ PathPieces l.pieces ∧
    ∀ p, l.pieces.getLast? = some p → ∀ items, p.Links (.group items)
  silence : b.marks.head? = some .silence → b.pieces = [] → silent = true

variable {b b' : Builder} {silent : Bool}

theorem Formed.emit (hb : b.Formed silent) (v : Value) (hv : v.Formed)
    (hsilent : b.marks.head? = some .silence → v.MayBeSilenced) (later : Bool) :
    (b.emit v).Formed later where
  items := ⟨foldl_marks_formed hv hsilent, hb.items⟩
  pieces := .nil
  layers := hb.layers
  silence h := by cases h

theorem Formed.finishPieces (hb : b.Formed silent) (h : b.finishPieces = .ok b') :
    b'.Formed silent ∧ b'.pieces = [] := by
  unfold Builder.finishPieces at h
  split at h
  · rename_i hnil
    cases h
    exact ⟨hb, hnil⟩
  · obtain ⟨v, hv, rfl⟩ := except_map_eq_ok.1 h
    obtain ⟨hformed, hsilenced⟩ := hb.pieces.value hv
    exact ⟨hb.emit v hformed (fun _ => hsilenced) silent, rfl⟩

theorem Formed.openLayer (hb : b.Formed silent) (bracket : Bracket) (later : Bool)
    (hlinks : ∀ p, b.pieces.getLast? = some p → ∀ items, p.Links (.group items)) :
    (b.openLayer bracket).Formed later where
  items := trivial
  pieces := .nil
  layers := List.forall_mem_cons.2 ⟨⟨hb.items, hb.pieces, hlinks⟩, hb.layers⟩
  silence h := by cases h

theorem Formed.closeLayer (hb : b.Formed silent) {bracket : Bracket}
    (h : b.closeLayer bracket = .ok b') (later : Bool) : b'.Formed later := by
  unfold Builder.closeLayer at h
  split at h
  · rename_i layer layers _ hl
    have hlayers := hb.layers
    rw [hl] at hlayers
    obtain ⟨⟨hitems, hpieces, hlinks⟩, hrest⟩ := List.forall_mem_cons.1 hlayers
    have hinner : Value.FormedAll b.items.reverse := by
      have hall := Value.formedAll_iff.1 hb.items
      exact Value.formedAll_iff.2 fun v hv => hall v (List.mem_reverse.1 hv)
    split at h
    · split at h
      · cases h
        have houter : Formed true { items := layer.items, marks := layer.marks, layers } :=
          ⟨hitems, .nil, hrest, fun _ _ => rfl⟩
        exact houter.emit (.block _) hinner (fun _ => trivial) later
      · cases h
        refine ⟨hitems, hpieces.concat hinner (fun p hp => hlinks p hp _) (.inr ⟨_, rfl⟩), hrest, ?_⟩
        intro _ hnil
        simp at hnil
    · cases h
  · cases h

theorem Formed.begin (hb : b.Formed silent) (hnil : b.pieces = []) {t : Token} (ht : t.Formed)
    (hsilent : silent = true → t.MayBeSilenced) (h : b.begin t = .ok b') :
    b'.Formed (decide (t = .atSign)) := by
  have hloud : ¬t.MayBeSilenced → b.marks.head? = some .silence → False :=
    fun hno hmark => hno (hsilent (hb.silence hmark hnil))
  cases t with
  | opening bracket =>
    cases h
    refine hb.openLayer bracket _ fun p hp => ?_
    rw [hnil] at hp
    cases hp
  | closing bracket => exact hb.closeLayer h _
  | text s =>
    cases h
    exact hb.emit (.text s) trivial (fun hmark => (hloud id hmark).elim) _
  | tag s =>
    cases h
    exact hb.emit (.tag s) ht (fun _ => trivial) _
  | comma =>
    cases h
    exact hb.emit .comma trivial (fun hmark => (hloud id hmark).elim) _
  | apostrophe =>
    cases h
    exact ⟨hb.items, hb.pieces, hb.layers, fun hmark => by cases hmark⟩
  | atSign =>
    cases h
    exact ⟨hb.items, hb.pieces, hb.layers, fun _ _ => rfl⟩
  | run s =>
    cases h
    exact ⟨hb.items, .run ht, hb.layers, fun _ h => by cases h⟩
  | endOfInput => cases h

theorem Formed.extend (hb : b.Formed silent) {t : Spanned} (ht : t.token.Formed)
    (hcontinues : b.continues t = true) :
    (b.extend t.token).Formed (decide (t.token = .atSign)) := by
  unfold Builder.continues at hcontinues
  rw [Bool.and_eq_true] at hcontinues
  obtain ⟨-, hcontinues⟩ := hcontinues
  split at hcontinues
  · rename_i cs hlast htoken
    rw [htoken]
    refine hb.openLayer .round _ fun p hp items => ?_
    rw [hlast] at hp
    cases hp
    simpa [Piece.Links] using hcontinues
  · rename_i items s hlast htoken
    rw [htoken] at ht ⊢
    have hword : Piece.Formed (.run s.toList) := IsRun.word ht
    have hne : b.pieces ≠ [] := by
      intro hnil
      rw [hnil] at hlast
      cases hlast
    refine ⟨hb.items, hb.pieces.concat hword (fun p hp => ?_) (.inl hne), hb.layers, ?_⟩
    · rw [hlast] at hp
      cases hp
      simpa [Piece.Links] using hcontinues
    · intro _ hnil
      simp [Builder.extend] at hnil
  · cases hcontinues

theorem Formed.next (hb : b.Formed silent) {t : Spanned} (ht : t.token.Formed)
    (hsilent : silent = true → t.token.MayBeSilenced) (h : b.next t = .ok b') :
    b'.Formed (decide (t.token = .atSign)) := by
  unfold Builder.next at h
  split at h
  · rename_i hcontinues
    cases h
    exact hb.extend ht hcontinues
  · obtain ⟨b₁, h₁, h⟩ := except_bind_eq_ok.1 h
    obtain ⟨_, -, h⟩ := except_bind_eq_ok.1 h
    obtain ⟨hformed, hnil⟩ := hb.finishPieces h₁
    exact hformed.begin hnil ht hsilent h

theorem Formed.finish (hb : b.Formed silent) {t : Spanned} {items : List Value}
    (h : b.finish t = .ok items) : Value.FormedAll items := by
  unfold Builder.finish at h
  obtain ⟨b₁, h₁, h⟩ := except_bind_eq_ok.1 h
  obtain ⟨_, -, h⟩ := except_bind_eq_ok.1 h
  split at h
  · cases h
    have hall := Value.formedAll_iff.1 (hb.finishPieces h₁).1.items
    exact Value.formedAll_iff.2 fun v hv => hall v (List.mem_reverse.1 hv)
  · cases h
  · cases h

end Builder

theorem build_formed {tokens : List Spanned} {b : Builder} {silent : Bool} (hb : b.Formed silent)
    (htokens : Follows silent tokens) {items : List Value} (h : build b tokens = .ok items) :
    Value.FormedAll items := by
  induction tokens generalizing b silent with
  | nil =>
    cases h
    have hall := Value.formedAll_iff.1 hb.items
    exact Value.formedAll_iff.2 fun v hv => hall v (List.mem_reverse.1 hv)
  | cons t ts ih =>
    obtain ⟨ht, hsilent, hrest⟩ := htokens
    unfold build at h
    split at h
    · exact hb.finish (locate_eq_ok h)
    · split at h
      · cases h
      · rename_i hnext
        exact ih (hb.next ht hsilent (locate_eq_ok hnext)) hrest h

theorem scan_formed {s : String} {items : List Value} (h : scan s = .ok items) :
    Value.FormedAll items := by
  obtain ⟨tokens, htokens, h⟩ := except_bind_eq_ok.1 h
  have hempty : Builder.Formed false {} :=
    ⟨trivial, .nil, by simp, by simp⟩
  exact build_formed hempty (tokenize_follows htokens) h

end Homoicon.Source
