import Homoicon.Proofs.Good
import Homoicon.Proofs.Results

/-!
# Scanned code

Units that were scanned hold neither actions nor errors, so they are good whatever is granted.
-/

namespace Homoicon.Source

variable {F : Facts}

def Piece.Good (F : Facts) : Piece → Prop
  | .run _ => True
  | .group items => Value.GoodAll F items

theorem readNumber?_good (cs : List Char) : Value.GoodMaybe F (readNumber? cs) := by
  unfold readNumber?
  split
  · split
    · trivial
    · cases Decimal.read? (String.ofList cs) <;> trivial
  · trivial

theorem segmentValue_good (cs : List Char) : (segmentValue cs).Good F :=
  (readNumber?_good cs).getD trivial

theorem Piece.Good.segmentValues {p : Piece} (hp : p.Good F) {first last : Bool} {items : List Value}
    (h : p.segmentValues first last = .ok items) : Value.GoodAll F items := by
  cases p with
  | group group =>
    cases h
    exact ⟨hp, trivial⟩
  | run cs =>
    have hparts : ∀ parts : List (List Char), Value.GoodAll F (parts.map segmentValue) := by
      intro parts
      refine Value.goodAll_iff.2 fun v hv => ?_
      obtain ⟨part, -, rfl⟩ := List.mem_map.1 hv
      exact segmentValue_good part
    simp only [Piece.segmentValues] at h
    repeat' split at h
    all_goals cases h
    all_goals first | exact hparts _ | trivial

theorem pathSegments_good {pieces : List Piece} (hp : ∀ p ∈ pieces, p.Good F) {first : Bool}
    {items : List Value} (h : pathSegments first pieces = .ok items) : Value.GoodAll F items := by
  induction pieces generalizing first items with
  | nil =>
    cases h
    trivial
  | cons p ps ih =>
    obtain ⟨hhead, htail⟩ := List.forall_mem_cons.1 hp
    cases ps with
    | nil => exact hhead.segmentValues h
    | cons q qs =>
      obtain ⟨here, hhere, h⟩ := except_bind_eq_ok.1 h
      obtain ⟨rest, hrest, h⟩ := except_bind_eq_ok.1 h
      cases h
      exact (hhead.segmentValues hhere).append (ih htail hrest)

theorem takeGetMark_good {pieces : List Piece} (hp : ∀ p ∈ pieces, p.Good F) :
    ∀ p ∈ (takeGetMark pieces).2, p.Good F := by
  unfold takeGetMark
  split
  · split
    · exact List.forall_mem_cons.2 ⟨trivial, (List.forall_mem_cons.1 hp).2⟩
    · exact hp
  · exact hp

theorem takeSetMark_good {pieces : List Piece} (hp : ∀ p ∈ pieces, p.Good F) :
    ∀ p ∈ (takeSetMark pieces).2, p.Good F := by
  induction pieces with
  | nil => exact hp
  | cons p ps ih =>
    obtain ⟨hhead, htail⟩ := List.forall_mem_cons.1 hp
    cases ps with
    | nil =>
      unfold takeSetMark
      split
      · split <;> simp [Piece.Good]
      · simp_all
      · exact hp
    | cons q qs =>
      rw [takeSetMark]
      exact List.forall_mem_cons.2 ⟨hhead, ih htail⟩

theorem assemblePath_good {pieces : List Piece} (hp : ∀ p ∈ pieces, p.Good F) {v : Value}
    (h : assemblePath pieces = .ok v) : v.Good F := by
  unfold assemblePath at h
  simp only at h
  split at h
  · cases h
  · obtain ⟨items, hitems, h⟩ := except_bind_eq_ok.1 h
    have hgood := pathSegments_good (takeSetMark_good (takeGetMark_good hp)) hitems
    split at h
    · cases h
    · cases h
      split
      · exact hgood
      · split <;> exact hgood

theorem wordValue_good (cs : List Char) : (wordValue cs).Good F := by
  unfold wordValue
  split
  · split
    · trivial
    · split <;> trivial
  · trivial

theorem runValue_good {cs : List Char} {v : Value} (h : runValue cs = .ok v) : v.Good F := by
  unfold runValue at h
  split at h
  · cases h
    trivial
  · cases h
    trivial
  · cases h
    trivial
  · cases h
    trivial
  · split at h <;> cases h
    trivial
  · split at h
    · exact assemblePath_good (by simp [Piece.Good]) h
    · cases h
      exact (readNumber?_good cs).getD (wordValue_good cs)

theorem piecesValue_good {pieces : List Piece} (hp : ∀ p ∈ pieces, p.Good F) {v : Value}
    (h : piecesValue pieces = .ok v) : v.Good F := by
  unfold piecesValue at h
  split at h
  · cases h
    exact hp (.group _) (by simp)
  · exact runValue_good h
  · exact assemblePath_good hp h

namespace Builder

structure Good (F : Facts) (b : Builder) : Prop where
  items : Value.GoodAll F b.items
  pieces : ∀ p ∈ b.pieces, p.Good F
  layers : ∀ l ∈ b.layers, Value.GoodAll F l.items ∧ ∀ p ∈ l.pieces, p.Good F

variable {b b' : Builder}

theorem Good.emit (hb : b.Good F) {v : Value} (hv : v.Good F) : (b.emit v).Good F := by
  refine ⟨⟨?_, hb.items⟩, by simp [Builder.emit], hb.layers⟩
  generalize b.marks = marks
  induction marks generalizing v with
  | nil => exact hv
  | cons m rest ih =>
    refine ih ?_
    cases m <;> exact hv

theorem Good.finishPieces (hb : b.Good F) (h : b.finishPieces = .ok b') : b'.Good F := by
  unfold Builder.finishPieces at h
  split at h
  · cases h
    exact hb
  · cases hv : piecesValue b.pieces with
    | error e =>
      rw [hv] at h
      cases h
    | ok v =>
      rw [hv] at h
      cases h
      exact hb.emit (piecesValue_good hb.pieces hv)

theorem Good.openLayer (hb : b.Good F) (bracket : Bracket) : (b.openLayer bracket).Good F :=
  ⟨trivial, by simp [Builder.openLayer], List.forall_mem_cons.2 ⟨⟨hb.items, hb.pieces⟩, hb.layers⟩⟩

theorem Good.closeLayer (hb : b.Good F) {bracket : Bracket} (h : b.closeLayer bracket = .ok b') :
    b'.Good F := by
  unfold Builder.closeLayer at h
  split at h
  · rename_i layer layers _ hl
    have hlayers := hb.layers
    rw [hl] at hlayers
    obtain ⟨hlayer, hlayers⟩ := List.forall_mem_cons.1 hlayers
    have houter : Good F { items := layer.items, marks := layer.marks, layers } :=
      ⟨hlayer.1, by simp, hlayers⟩
    split at h
    · split at h
      · cases h
        exact houter.emit (hb.items.reverse)
      · cases h
        refine ⟨hlayer.1, fun p hp => ?_, hlayers⟩
        rcases List.mem_append.1 hp with hp | hp
        · exact hlayer.2 p hp
        · obtain rfl : p = .group b.items.reverse := by simpa using hp
          exact hb.items.reverse
    · cases h
  · cases h

theorem Good.begin (hb : b.Good F) {t : Token} (h : b.begin t = .ok b') : b'.Good F := by
  cases t with
  | opening bracket =>
    cases h
    exact hb.openLayer bracket
  | closing bracket => exact hb.closeLayer h
  | text s =>
    cases h
    exact hb.emit trivial
  | tag s =>
    cases h
    exact hb.emit trivial
  | comma =>
    cases h
    exact hb.emit trivial
  | apostrophe =>
    cases h
    exact ⟨hb.items, hb.pieces, hb.layers⟩
  | atSign =>
    cases h
    exact ⟨hb.items, hb.pieces, hb.layers⟩
  | run s =>
    cases h
    exact ⟨hb.items, by simp [Piece.Good], hb.layers⟩
  | endOfInput => cases h

theorem Good.extend (hb : b.Good F) (t : Token) : (b.extend t).Good F := by
  unfold Builder.extend
  split
  · refine ⟨hb.items, fun p hp => ?_, hb.layers⟩
    rcases List.mem_append.1 hp with hp | hp
    · exact hb.pieces p hp
    · obtain rfl : p = .run _ := by simpa using hp
      trivial
  · exact hb.openLayer _
  · exact hb

theorem Good.next (hb : b.Good F) {t : Spanned} (h : b.next t = .ok b') : b'.Good F := by
  unfold Builder.next at h
  split at h
  · cases h
    exact hb.extend t.token
  · obtain ⟨b₁, h₁, h⟩ := except_bind_eq_ok.1 h
    obtain ⟨_, -, h⟩ := except_bind_eq_ok.1 h
    exact (hb.finishPieces h₁).begin h

theorem Good.finish (hb : b.Good F) {t : Spanned} {items : List Value}
    (h : b.finish t = .ok items) : Value.GoodAll F items := by
  unfold Builder.finish at h
  obtain ⟨b₁, h₁, h⟩ := except_bind_eq_ok.1 h
  obtain ⟨_, -, h⟩ := except_bind_eq_ok.1 h
  split at h
  · cases h
    exact (hb.finishPieces h₁).items.reverse
  · cases h
  · cases h

end Builder

theorem locate_eq_ok {α : Type} {p : Position} {x : Except ScanCause α} {a : α}
    (h : locate p x = .ok a) : x = .ok a := by
  cases x with
  | error _ => cases h
  | ok b =>
    cases h
    rfl

theorem build_good {tokens : List Spanned} {b : Builder} (hb : b.Good F) {items : List Value}
    (h : build b tokens = .ok items) : Value.GoodAll F items := by
  induction tokens generalizing b with
  | nil =>
    cases h
    exact hb.items.reverse
  | cons t ts ih =>
    unfold build at h
    split at h
    · exact hb.finish (locate_eq_ok h)
    · split at h
      · cases h
      · rename_i hnext
        exact ih (hb.next (locate_eq_ok hnext)) h

theorem scan_good {s : String} {items : List Value} (h : scan s = .ok items) :
    Value.GoodAll F items := by
  obtain ⟨tokens, -, h⟩ := except_bind_eq_ok.1 h
  have hempty : Builder.Good F {} := ⟨trivial, by simp, by simp⟩
  exact build_good hempty h

end Homoicon.Source
