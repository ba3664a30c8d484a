import Homoicon.Proofs.Paths

/-!
# How paths are spelled

A path is written as pieces: runs of segments with slashes between them, and groups.  Here are the
pieces of a written path, and that they are put together to the same path again.
-/

namespace Homoicon.Source

/-! ### Integers -/

theorem ne_of_isDigit {c d : Char} (h : c.isDigit = true) (hd : d.isDigit = false) : c ≠ d := by
  rintro rfl
  rw [h] at hd
  cases hd

theorem isDelimiter_of_isDigit {c : Char} (h : c.isDigit = true) : isDelimiter c = false := by
  have hrange : 48 ≤ c.toNat ∧ c.toNat ≤ 57 := by
    simp only [Char.isDigit, Bool.and_eq_true, decide_eq_true_eq, ge_iff_le,
      UInt32.le_iff_toNat_le] at h
    exact h
  have hblank : Text.isBlank c = false := by
    have hascii : c.toNat < 128 := by omega
    simp only [Text.isBlank, hascii, if_true, decide_eq_false_iff_not]
    omega
  have hother : ['[', ']', '(', ')', '"', ';', ',', '\x7b', '\x7d'].all fun d => !d.isDigit := by
    decide
  rw [isDelimiter, hblank, Bool.false_or]
  cases hcontains : ['[', ']', '(', ')', '"', ';', ',', '\x7b', '\x7d'].contains c with
  | false => rfl
  | true =>
    have hnot := List.all_eq_true.1 hother c (List.contains_iff_mem.1 hcontains)
    rw [h] at hnot
    cases hnot

theorem toList_integerText (n : Int64) : ∃ m : Nat,
    n.toInt = m ∧ (integerText n).toList = Nat.toDigits 10 m ∨
      n.toInt = -m ∧ (integerText n).toList = '-' :: Nat.toDigits 10 m := by
  unfold integerText
  cases n.toInt with
  | ofNat m => exact ⟨m, .inl ⟨rfl, Nat.toList_repr⟩⟩
  | negSucc m =>
    refine ⟨m + 1, .inr ⟨rfl, ?_⟩⟩
    simp [String.toList_append, Nat.toList_repr]

theorem digitsValue_toDigits (m : Nat) : Decimal.digitsValue (Nat.toDigits 10 m) = m :=
  Nat.ofDigitChars_ten_toDigits

theorem integer64?_toInt (n : Int64) : integer64? n.toInt = some n := by
  have hfits : Int64.minValue.toInt ≤ n.toInt ∧ n.toInt ≤ Int64.maxValue.toInt :=
    ⟨Int64.minValue_le_toInt n, Int64.toInt_le n⟩
  rw [integer64?, if_pos hfits, Int64.ofInt_toInt]

theorem readNumber?_of_splitSign {cs : List Char} {negative : Bool} {m : Nat} {n : Int64}
    (hsplit : Decimal.splitSign cs = (negative, Nat.toDigits 10 m))
    (hn : n.toInt = if negative then -(m : Int) else m) : readNumber? cs = some (.integer n) := by
  have hdigits : ∀ c ∈ Nat.toDigits 10 m, c.isDigit = true :=
    fun c hc => Nat.isDigit_of_mem_toDigits (by decide) (by decide) hc
  have hread : readInteger? cs = some n := by
    have hall : (Nat.toDigits 10 m).all Char.isDigit = true := List.all_eq_true.2 hdigits
    have hne : (Nat.toDigits 10 m).isEmpty = false := by
      simp
    simp only [readInteger?, hsplit, hall, hne, digitsValue_toDigits, Bool.not_true, Bool.or_self,
      Bool.false_eq_true, if_false]
    rw [← hn, integer64?_toInt]
  have hbegins : beginsNumber cs = true := by
    obtain ⟨c, ds, hc⟩ := List.exists_cons_of_ne_nil (Nat.toDigits_ne_nil (n := m) (b := 10))
    have hc' := hdigits c (by rw [hc]; exact List.mem_cons_self)
    simp [beginsNumber, hsplit, hc, hc']
  simp [readNumber?, hbegins, hread]

theorem splitSign_of_isDigit {c : Char} (h : c.isDigit = true) (cs : List Char) :
    Decimal.splitSign (c :: cs) = (false, c :: cs) := by
  unfold Decimal.splitSign
  split
  · rename_i heq
    cases heq
    cases h
  · rename_i heq
    cases heq
    cases h
  · rfl

theorem readNumber?_integerText (n : Int64) :
    readNumber? (integerText n).toList = some (.integer n) := by
  obtain ⟨m, ⟨hn, htext⟩ | ⟨hn, htext⟩⟩ := toList_integerText n
  · obtain ⟨c, ds, hc⟩ := List.exists_cons_of_ne_nil (Nat.toDigits_ne_nil (n := m) (b := 10))
    have hdigit : c.isDigit = true :=
      Nat.isDigit_of_mem_toDigits (b := 10) (n := m) (by decide) (by decide) (by simp [hc])
    have hsplit : Decimal.splitSign (integerText n).toList = (false, Nat.toDigits 10 m) := by
      rw [htext, hc]
      exact splitSign_of_isDigit hdigit ds
    exact readNumber?_of_splitSign hsplit hn
  · have hsplit : Decimal.splitSign (integerText n).toList = (true, Nat.toDigits 10 m) := by
      rw [htext]
      rfl
    exact readNumber?_of_splitSign hsplit hn

theorem mem_integerText {n : Int64} {c : Char} (h : c ∈ (integerText n).toList) :
    c = '-' ∨ c.isDigit = true := by
  obtain ⟨m, ⟨-, htext⟩ | ⟨-, htext⟩⟩ := toList_integerText n
  · rw [htext] at h
    exact .inr (Nat.isDigit_of_mem_toDigits (by decide) (by decide) h)
  · rw [htext, List.mem_cons] at h
    exact h.imp id (Nat.isDigit_of_mem_toDigits (by decide) (by decide))

theorem integerText_ne_nil (n : Int64) : (integerText n).toList ≠ [] := by
  obtain ⟨m, ⟨-, htext⟩ | ⟨-, htext⟩⟩ := toList_integerText n
  · rw [htext]
    exact Nat.toDigits_ne_nil
  · rw [htext]
    exact List.cons_ne_nil _ _

theorem integerText_ne {n : Int64} {c d : Char} (h : c ∈ (integerText n).toList)
    (hminus : d ≠ '-') (hdigit : d.isDigit = false) : c ≠ d := by
  rcases mem_integerText h with rfl | hc
  · exact Ne.symm hminus
  · exact ne_of_isDigit hc hdigit

theorem integerText_word {n : Int64} {c : Char} (h : c ∈ (integerText n).toList) :
    isDelimiter c = false := by
  rcases mem_integerText h with rfl | hc
  · decide
  · exact isDelimiter_of_isDigit hc

/-! ### Segments -/

theorem intercalate_cons_eq (c : Char) (x : List Char) (xs : List (List Char)) :
    [c].intercalate (x :: xs) = x ++ xs.flatMap fun y => c :: y := by
  induction xs generalizing x with
  | nil => simp
  | cons y ys ih =>
    rw [List.intercalate_cons_cons, ih y, List.flatMap_cons]
    simp

/-- A value that is a segment of a path by its characters alone. -/
structure IsAtom (v : Value) : Prop where
  segment : segmentValue v.chars = v
  ne_nil : v.chars ≠ []
  word : ∀ c ∈ v.chars, isDelimiter c = false
  slash : '/' ∉ v.chars

theorem isAtom_integer (n : Int64) : IsAtom (.integer n) := by
  have hchars : (Value.integer n).chars = (integerText n).toList := rfl
  constructor
  · rw [hchars, segmentValue, readNumber?_integerText]
    rfl
  · exact integerText_ne_nil n
  · exact fun c hc => integerText_word hc
  · exact fun hc => integerText_ne hc (by decide) (by decide) rfl

theorem isAtom_word {w : String} (h : IsSegment w.toList) : IsAtom (.word w) := by
  have hchars : (Value.word w).chars = w.toList := rfl
  constructor
  · rw [hchars, segmentValue, h.notNumber, Option.getD_none, String.ofList_toList]
  · exact h.ne_nil
  · exact h.word
  · exact h.slash

/-- The segments of a path, each behind a slash. -/
def slashed (vs : List Value) : List Char := vs.flatMap fun v => '/' :: v.chars

@[simp] theorem slashed_nil : slashed [] = [] := rfl

@[simp] theorem slashed_cons (v : Value) (vs : List Value) :
    slashed (v :: vs) = '/' :: (v.chars ++ slashed vs) := rfl

theorem slashed_append (vs ws : List Value) : slashed (vs ++ ws) = slashed vs ++ slashed ws :=
  List.flatMap_append

theorem segments_slashed {v : Value} {vs : List Value} (hv : IsAtom v) (hvs : ∀ w ∈ vs, IsAtom w) :
    segments (v.chars ++ slashed vs) = (v :: vs).map Value.chars := by
  induction vs generalizing v with
  | nil => simpa using segments_of_free hv.slash
  | cons w ws ih =>
    obtain ⟨hw, hws⟩ := List.forall_mem_cons.1 hvs
    rw [slashed_cons, segments_append hv.slash, ih hw hws]
    rfl

theorem map_segmentValue {vs : List Value} (h : ∀ v ∈ vs, IsAtom v) :
    (vs.map Value.chars).map segmentValue = vs := by
  have hid : vs.map (segmentValue ∘ Value.chars) = vs.map id :=
    List.map_congr_left fun v hv => (h v hv).segment
  rw [List.map_map, hid, List.map_id]

/-- The characters of a run with these segments; the first run of a path has no slash before it. -/
def runChars (first : Bool) (atoms : List Value) : List Char :=
  (slashed atoms).drop (if first then 1 else 0)

theorem runChars_concat {first : Bool} {atoms : List Value} (h : first = true → atoms ≠ [])
    (v : Value) : runChars first (atoms ++ [v]) = runChars first atoms ++ '/' :: v.chars := by
  unfold runChars
  rw [slashed_append, slashed_cons, slashed_nil, List.append_nil]
  cases first with
  | false => rfl
  | true =>
    obtain ⟨a, atoms, rfl⟩ := List.exists_cons_of_ne_nil (h rfl)
    rfl

theorem stripBack?_append (c : Char) (cs : List Char) : stripBack? c (cs ++ [c]) = some cs := by
  simp [stripBack?]

theorem segmentValues_of_inner {first last : Bool} {cs : List Char} {v : Value} {vs : List Value}
    (hinner : innerChars first last cs = v.chars ++ slashed vs) (h : ∀ w ∈ v :: vs, IsAtom w) :
    (Piece.run cs).segmentValues first last = .ok (v :: vs) := by
  obtain ⟨hv, hvs⟩ := List.forall_mem_cons.1 h
  have hparts := segments_slashed hv hvs
  have hinner_ne : (innerChars first last cs).isEmpty = false := by
    rw [hinner, List.isEmpty_eq_false_iff]
    exact fun hnil => hv.ne_nil (List.append_eq_nil_iff.1 hnil).1
  have hany : (segments (innerChars first last cs)).any List.isEmpty = false := by
    rw [hinner, hparts, List.any_eq_false]
    intro s hs
    obtain ⟨w, hw, rfl⟩ := List.mem_map.1 hs
    simpa using (h w hw).ne_nil
  rw [segmentValues_run, hinner_ne, hany, hinner, hparts, map_segmentValue h]
  rfl

theorem segmentValues_runChars {first : Bool} {atoms : List Value} (hne : atoms ≠ [])
    (h : ∀ v ∈ atoms, IsAtom v) :
    (Piece.run (runChars first atoms)).segmentValues first true = .ok atoms := by
  obtain ⟨v, vs, rfl⟩ := List.exists_cons_of_ne_nil hne
  have hinner : innerChars first true (runChars first (v :: vs)) = v.chars ++ slashed vs := by
    cases first with
    | true => rfl
    | false => simp [innerChars, runChars, stripFront?]
  exact segmentValues_of_inner hinner h

theorem segmentValues_runChars_slash {first : Bool} {atoms : List Value}
    (hne : first = true → atoms ≠ []) (h : ∀ v ∈ atoms, IsAtom v) :
    (Piece.run (runChars first atoms ++ ['/'])).segmentValues first false = .ok atoms := by
  cases atoms with
  | nil =>
    cases first with
    | true => exact absurd rfl (hne rfl)
    | false => rfl
  | cons v vs =>
    have hinner : innerChars first false (runChars first (v :: vs) ++ ['/']) =
        v.chars ++ slashed vs := by
      have hback := stripBack?_append '/' (v.chars ++ slashed vs)
      rw [List.append_assoc] at hback
      cases first with
      | true => simp [innerChars, runChars, hback]
      | false => simp [innerChars, runChars, stripFront?, hback]
    exact segmentValues_of_inner hinner h

/-! ### The pieces of a path -/

/-- Pieces of the segments that come after a run, or after a group if the run is empty. -/
def tailPieces (run : List Char) : List Value → List Piece
  | [] => if run.isEmpty then [] else [.run run]
  | .group items :: vs => .run (run ++ ['/']) :: .group items :: tailPieces [] vs
  | v :: vs => tailPieces (run ++ '/' :: v.chars) vs

def pathPieces : List Value → List Piece
  | [] => []
  | .group items :: vs => .group items :: tailPieces [] vs
  | v :: vs => tailPieces v.chars vs

def IsPiece (v : Value) : Prop := IsAtom v ∨ ∃ items, v = .group items

theorem IsAtom.ne_group {v : Value} (h : IsAtom v) (items : List Value) : v ≠ .group items := by
  rintro rfl
  have hsegment := h.segment
  obtain ⟨n, hn⟩ | ⟨x, hx⟩ | ⟨-, hw⟩ := segmentValue_cases (Value.group items).chars
  · cases hn.symm.trans hsegment
  · cases hx.symm.trans hsegment
  · cases hw.symm.trans hsegment

theorem IsAtom.tailPieces_cons {v : Value} (h : IsAtom v) (run : List Char) (vs : List Value) :
    tailPieces run (v :: vs) = tailPieces (run ++ '/' :: v.chars) vs := by
  cases v with
  | group items => exact absurd rfl (h.ne_group items)
  | _ => rfl

theorem IsAtom.pathPieces_cons {v : Value} (h : IsAtom v) (vs : List Value) :
    pathPieces (v :: vs) = tailPieces v.chars vs := by
  cases v with
  | group items => exact absurd rfl (h.ne_group items)
  | _ => rfl

def Piece.chars : Piece → List Char
  | .run cs => cs
  | .group items => (Value.group items).chars

def piecesChars (pieces : List Piece) : List Char := pieces.flatMap Piece.chars

section

variable {vs : List Value} (h : ∀ v ∈ vs, IsPiece v)
include h

theorem tailPieces_chars (run : List Char) :
    piecesChars (tailPieces run vs) = run ++ slashed vs := by
  induction vs generalizing run with
  | nil => cases run <;> simp [tailPieces, piecesChars, Piece.chars]
  | cons v vs ih =>
    obtain ⟨hv, hvs⟩ := List.forall_mem_cons.1 h
    rcases hv with hv | ⟨items, rfl⟩
    · rw [hv.tailPieces_cons, ih hvs]
      simp
    · have hrest := ih hvs []
      simp only [piecesChars, tailPieces, List.flatMap_cons, Piece.chars] at hrest ⊢
      rw [hrest]
      simp

theorem tailPieces_head (run : List Char) (hne : vs ≠ []) :
    ∃ ds ps, tailPieces run vs = .run (run ++ '/' :: ds) :: ps := by
  induction vs generalizing run with
  | nil => exact absurd rfl hne
  | cons v vs ih =>
    obtain ⟨hv, hvs⟩ := List.forall_mem_cons.1 h
    rcases hv with hv | ⟨items, rfl⟩
    · rw [hv.tailPieces_cons]
      by_cases hnil : vs = []
      · subst hnil
        exact ⟨v.chars, [], by simp [tailPieces]⟩
      · obtain ⟨ds, ps, htail⟩ := ih hvs (run ++ '/' :: v.chars) hnil
        exact ⟨v.chars ++ '/' :: ds, ps, by rw [htail]; simp⟩
    · exact ⟨[], _, rfl⟩

theorem tailPieces_linked (run : List Char) : Linked (tailPieces run vs) := by
  induction vs generalizing run with
  | nil => cases run <;> trivial
  | cons v vs ih =>
    obtain ⟨hv, hvs⟩ := List.forall_mem_cons.1 h
    rcases hv with hv | ⟨items, rfl⟩
    · rw [hv.tailPieces_cons]
      exact ih hvs _
    · have hlast : (run ++ ['/']).getLast? = some '/' := by simp
      refine ⟨hlast, ?_⟩
      have hrest := ih hvs []
      by_cases hnil : vs = []
      · subst hnil
        trivial
      · obtain ⟨ds, ps, htail⟩ := tailPieces_head hvs [] hnil
        rw [htail] at hrest ⊢
        exact ⟨rfl, hrest⟩

theorem mem_tailPieces {run : List Char} (hrun : ∀ c ∈ run, isDelimiter c = false) {p : Piece}
    (hp : p ∈ tailPieces run vs) :
    (∃ cs, p = .run cs ∧ ∀ c ∈ cs, isDelimiter c = false) ∨
      ∃ items, p = .group items ∧ .group items ∈ vs := by
  have hslash : isDelimiter '/' = false := by decide
  induction vs generalizing run with
  | nil =>
    have hp' : p = .run run := by
      cases run with
      | nil => cases hp
      | cons c cs => exact List.mem_singleton.1 hp
    exact .inl ⟨run, hp', hrun⟩
  | cons v vs ih =>
    obtain ⟨hv, hvs⟩ := List.forall_mem_cons.1 h
    have hlift : (∃ cs, p = .run cs ∧ ∀ c ∈ cs, isDelimiter c = false) ∨
        (∃ items, p = .group items ∧ .group items ∈ vs) →
        (∃ cs, p = .run cs ∧ ∀ c ∈ cs, isDelimiter c = false) ∨
          ∃ items, p = .group items ∧ .group items ∈ v :: vs :=
      fun h => h.imp id fun ⟨items, heq, hmem⟩ => ⟨items, heq, List.mem_cons_of_mem _ hmem⟩
    rcases hv with hv | ⟨items, rfl⟩
    · rw [hv.tailPieces_cons] at hp
      refine hlift (ih hvs (List.forall_mem_append.2 ⟨hrun, ?_⟩) hp)
      exact List.forall_mem_cons.2 ⟨hslash, hv.word⟩
    · rw [tailPieces, List.mem_cons, List.mem_cons] at hp
      rcases hp with rfl | rfl | hp
      · refine .inl ⟨_, rfl, List.forall_mem_append.2 ⟨hrun, ?_⟩⟩
        exact List.forall_mem_singleton.2 hslash
      · exact .inr ⟨items, rfl, List.mem_cons_self⟩
      · exact hlift (ih hvs (by simp) hp)

theorem tailPieces_last (run : List Char) (hne : vs ≠ []) : ∃ v ps, vs.getLast? = some v ∧
    ((∃ items, v = .group items ∧ tailPieces run vs = ps ++ [.group items]) ∨
      IsAtom v ∧ ∃ ds, tailPieces run vs = ps ++ [.run (ds ++ v.chars)]) := by
  induction vs generalizing run with
  | nil => exact absurd rfl hne
  | cons v vs ih =>
    obtain ⟨hv, hvs⟩ := List.forall_mem_cons.1 h
    by_cases hnil : vs = []
    · subst hnil
      rcases hv with hv | ⟨items, rfl⟩
      · rw [hv.tailPieces_cons]
        exact ⟨v, [], rfl, .inr ⟨hv, run ++ ['/'], by simp [tailPieces]⟩⟩
      · exact ⟨_, [.run (run ++ ['/'])], rfl, .inl ⟨items, rfl, rfl⟩⟩
    · obtain ⟨first, rest, hvs_eq⟩ := List.exists_cons_of_ne_nil hnil
      have hlast : (v :: vs).getLast? = vs.getLast? := by rw [hvs_eq, List.getLast?_cons_cons]
      rw [hlast]
      rcases hv with hv | ⟨items, rfl⟩
      · rw [hv.tailPieces_cons]
        exact ih hvs _ hnil
      · obtain ⟨w, ps, hw, hends⟩ := ih hvs [] hnil
        refine ⟨w, .run (run ++ ['/']) :: .group items :: ps, hw, ?_⟩
        rcases hends with ⟨group, hgroup, hps⟩ | ⟨hatom, ds, hps⟩
        · exact .inl ⟨group, hgroup, by rw [tailPieces, hps]; rfl⟩
        · exact .inr ⟨hatom, ds, by rw [tailPieces, hps]; rfl⟩

omit h in
theorem pathSegments_group {first : Bool} {items rest : List Value} {ps : List Piece}
    (hrest : pathSegments false ps = .ok rest) :
    pathSegments first (.group items :: ps) = .ok (.group items :: rest) := by
  cases ps with
  | nil =>
    cases hrest
    rfl
  | cons p ps =>
    rw [pathSegments, hrest]
    · rfl
    · simp

theorem pathSegments_tailPieces {first : Bool} {atoms : List Value}
    (hatoms : ∀ v ∈ atoms, IsAtom v) (hfirst : first = true → atoms ≠ []) :
    pathSegments first (tailPieces (runChars first atoms) vs) = .ok (atoms ++ vs) := by
  induction vs generalizing first atoms with
  | nil =>
    rw [List.append_nil]
    cases atoms with
    | nil =>
      cases first with
      | true => exact absurd rfl (hfirst rfl)
      | false => rfl
    | cons a as =>
      have hne : (runChars first (a :: as)).isEmpty = false := by
        cases first with
        | true => simp [runChars, (hatoms a List.mem_cons_self).ne_nil]
        | false => rfl
      rw [tailPieces, hne]
      exact segmentValues_runChars (List.cons_ne_nil a as) hatoms
  | cons v vs ih =>
    obtain ⟨hv, hvs⟩ := List.forall_mem_cons.1 h
    rcases hv with hv | ⟨items, rfl⟩
    · -- an atom makes the run longer, which is why the induction is over all runs
      rw [hv.tailPieces_cons, ← runChars_concat hfirst, List.append_cons atoms v vs]
      exact ih hvs (List.forall_mem_append.2 ⟨hatoms, List.forall_mem_singleton.2 hv⟩)
        (fun _ => by simp)
    · have hrest : pathSegments false (tailPieces (runChars false []) vs) = .ok ([] ++ vs) :=
        ih hvs (by simp) (by simp)
      have hgroup : pathSegments false (.group items :: tailPieces [] vs) =
          .ok (.group items :: vs) := pathSegments_group hrest
      rw [tailPieces, pathSegments, segmentValues_runChars_slash hfirst hatoms, hgroup]
      · rfl
      · simp

end

/-! ### Paths -/

section

variable {vs : List Value} (h : ∀ v ∈ vs, IsPiece v)
include h

theorem pathPieces_chars : piecesChars (pathPieces vs) = ['/'].intercalate (vs.map Value.chars) := by
  cases vs with
  | nil => rfl
  | cons v vs =>
    obtain ⟨hv, hvs⟩ := List.forall_mem_cons.1 h
    have hjoin : ['/'].intercalate ((v :: vs).map Value.chars) = v.chars ++ slashed vs := by
      rw [List.map_cons, intercalate_cons_eq, List.flatMap_map]
      rfl
    rw [hjoin]
    rcases hv with hv | ⟨items, rfl⟩
    · rw [hv.pathPieces_cons, tailPieces_chars hvs]
    · have hrest := tailPieces_chars hvs []
      rw [piecesChars, List.nil_append] at hrest
      rw [piecesChars, pathPieces, List.flatMap_cons, hrest]
      rfl

theorem pathSegments_pathPieces : pathSegments true (pathPieces vs) = .ok vs := by
  cases vs with
  | nil => rfl
  | cons v vs =>
    obtain ⟨hv, hvs⟩ := List.forall_mem_cons.1 h
    rcases hv with hv | ⟨items, rfl⟩
    · have hrun : runChars true [v] = v.chars := by simp [runChars]
      rw [hv.pathPieces_cons, ← hrun]
      exact pathSegments_tailPieces hvs (List.forall_mem_singleton.2 hv) (by simp)
    · have hrest : pathSegments false (tailPieces (runChars false []) vs) = .ok ([] ++ vs) :=
        pathSegments_tailPieces hvs (by simp) (by simp)
      exact pathSegments_group hrest

theorem pathPieces_linked : Linked (pathPieces vs) := by
  cases vs with
  | nil => trivial
  | cons v vs =>
    obtain ⟨hv, hvs⟩ := List.forall_mem_cons.1 h
    rcases hv with hv | ⟨items, rfl⟩
    · rw [hv.pathPieces_cons]
      exact tailPieces_linked hvs _
    · exact (tailPieces_linked h []).tail

theorem mem_pathPieces {p : Piece} (hp : p ∈ pathPieces vs) :
    (∃ cs, p = .run cs ∧ ∀ c ∈ cs, isDelimiter c = false) ∨
      ∃ items, p = .group items ∧ .group items ∈ vs := by
  cases vs with
  | nil => cases hp
  | cons v vs =>
    obtain ⟨hv, hvs⟩ := List.forall_mem_cons.1 h
    rcases hv with hv | ⟨items, rfl⟩
    · rw [hv.pathPieces_cons] at hp
      refine (mem_tailPieces hvs hv.word hp).imp id fun ⟨items, heq, hmem⟩ => ?_
      exact ⟨items, heq, List.mem_cons_of_mem _ hmem⟩
    · have hempty : ∀ c ∈ ([] : List Char), isDelimiter c = false := by simp
      exact mem_tailPieces h hempty (List.mem_cons_of_mem _ hp)

theorem pathPieces_head (hlen : 2 ≤ vs.length) : ∃ v, vs.head? = some v ∧
    ((∃ items p ps, v = .group items ∧ pathPieces vs = .group items :: p :: ps) ∨
      IsAtom v ∧ ∃ ds ps, pathPieces vs = .run (v.chars ++ '/' :: ds) :: ps) := by
  match vs with
  | [] => simp at hlen
  | [v] => simp at hlen
  | v :: w :: vs =>
    obtain ⟨hv, hvs⟩ := List.forall_mem_cons.1 h
    refine ⟨v, rfl, ?_⟩
    rcases hv with hv | ⟨items, rfl⟩
    · obtain ⟨ds, ps, htail⟩ := tailPieces_head hvs v.chars (List.cons_ne_nil w vs)
      rw [hv.pathPieces_cons]
      exact .inr ⟨hv, ds, ps, htail⟩
    · obtain ⟨ds, ps, htail⟩ := tailPieces_head hvs [] (List.cons_ne_nil w vs)
      exact .inl ⟨items, _, ps, rfl, by rw [pathPieces, htail]⟩

theorem pathPieces_last (hlen : 2 ≤ vs.length) : ∃ v ps, vs.getLast? = some v ∧
    ((∃ items, v = .group items ∧ pathPieces vs = ps ++ [.group items]) ∨
      IsAtom v ∧ ∃ ds, pathPieces vs = ps ++ [.run (ds ++ v.chars)]) := by
  match vs with
  | [] => simp at hlen
  | [v] => simp at hlen
  | v :: w :: vs =>
    obtain ⟨hv, hvs⟩ := List.forall_mem_cons.1 h
    rw [List.getLast?_cons_cons]
    rcases hv with hv | ⟨items, rfl⟩
    · rw [hv.pathPieces_cons]
      exact tailPieces_last hvs _ (List.cons_ne_nil w vs)
    · obtain ⟨v, ps, hlast, hends⟩ := tailPieces_last hvs [] (List.cons_ne_nil w vs)
      refine ⟨v, .group items :: ps, hlast, ?_⟩
      rcases hends with ⟨group, hgroup, hps⟩ | ⟨hatom, ds, hps⟩
      · exact .inl ⟨group, hgroup, by rw [pathPieces, hps]; rfl⟩
      · exact .inr ⟨hatom, ds, by rw [pathPieces, hps]; rfl⟩

end

/-- Pieces that are read as `v` and stand in its written form; their groups are among `items`. -/
structure Spells (pieces : List Piece) (items : List Value) (v : Value) : Prop where
  path : PathPieces pieces
  value : piecesValue pieces = .ok v
  chars : piecesChars pieces = v.chars
  groups : ∀ group, Piece.group group ∈ pieces → Value.group group ∈ items

theorem spells_written {v : Value} (h : v.IsWritten) : Spells [.run v.chars] [] v where
  path := .run h.1
  value := h.2
  chars := by simp [piecesChars, Piece.chars]
  groups group hgroup := by simp at hgroup

theorem spells_group {items : List Value} (h : Value.FormedAll items) :
    Spells [.group items] [.group items] (.group items) where
  path := PathPieces.nil.concat h (by simp) (.inr ⟨items, rfl⟩)
  value := rfl
  chars := by simp [piecesChars, Piece.chars]
  groups group hgroup := by
    obtain rfl : group = items := by simpa using hgroup
    exact List.mem_cons_self

/-- A run with a slash in it, but not in front. -/
structure BeginsPath (cs : List Char) : Prop where
  run : IsRun cs
  slash : '/' ∈ cs
  bare : cs.head? ≠ some '/'

theorem BeginsPath.runValue {cs : List Char} (h : BeginsPath cs) :
    runValue cs = assemblePath [.run cs] := by
  have hslash := h.slash
  have hcontains : cs.contains '/' = true := List.contains_iff_mem.2 hslash
  unfold Source.runValue
  split
  · simp at hslash
  · simp at hslash
  · exact absurd rfl h.bare
  · exact absurd rfl h.bare
  · exact absurd rfl h.bare
  · rw [if_pos hcontains]

theorem piecesValue_path {pieces : List Piece} {v : Value} (h : assemblePath pieces = .ok v)
    (hbegins : ∀ cs ps, pieces = .run cs :: ps → BeginsPath cs) : piecesValue pieces = .ok v := by
  unfold piecesValue
  split
  · cases h
  · rename_i cs
    rw [(hbegins cs [] rfl).runValue]
    exact h
  · exact h

theorem isRun_integer (n : Int64) {ds : List Char} (hds : ∀ c ∈ ds, isDelimiter c = false) :
    IsRun ((integerText n).toList ++ ds) := by
  obtain ⟨c, cs, hc⟩ := List.exists_cons_of_ne_nil (integerText_ne_nil n)
  have hmem : c ∈ (integerText n).toList := by
    rw [hc]
    exact List.mem_cons_self
  have hother : ∀ d, d ≠ '-' → d.isDigit = false → ((integerText n).toList ++ ds).head? ≠ some d := by
    intro d hminus hdigit hd
    rw [hc, List.cons_append, List.head?_cons, Option.some.injEq] at hd
    exact integerText_ne hmem hminus hdigit hd
  constructor
  · rw [hc]
    exact List.cons_ne_nil _ _
  · exact List.forall_mem_append.2 ⟨fun c hc => integerText_word hc, hds⟩
  · exact hother '\x27' (by decide) (by decide)
  · exact fun h => absurd h (hother '@' (by decide) (by decide))
  · exact fun h => absurd h (hother '<' (by decide) (by decide))

section

variable {items : List Value} (hformed : Value.FormedSegments items)
  (hwhole : ∀ x, Value.decimal x ∉ items)
include hformed hwhole

theorem isPiece_of_formed : ∀ v ∈ items, IsPiece v := by
  intro v hv
  have hsegment := Value.formedSegments_iff.1 hformed v hv
  cases v with
  | word w => exact .inl (isAtom_word hsegment)
  | integer n => exact .inl (isAtom_integer n)
  | decimal x => exact absurd hv (hwhole x)
  | group group => exact .inr ⟨group, rfl⟩
  | _ => exact hsegment.elim

theorem pathPieces_formed : ∀ p ∈ pathPieces items, p.Formed := by
  intro p hp
  rcases mem_pathPieces (isPiece_of_formed hformed hwhole) hp with
    ⟨cs, rfl, hword⟩ | ⟨group, rfl, hgroup⟩
  · exact hword
  · exact Value.formedSegments_iff.1 hformed _ hgroup

omit hformed hwhole in
theorem group_mem_of_pathPieces (h : ∀ v ∈ items, IsPiece v) {group : List Value}
    (hgroup : Piece.group group ∈ pathPieces items) : Value.group group ∈ items := by
  rcases mem_pathPieces h hgroup with ⟨cs, hcs, -⟩ | ⟨items', heq, hmem⟩
  · cases hcs
  · cases heq
    exact hmem

theorem opensPath_atom (hopens : OpensPath items) {v : Value} (hv : items.head? = some v)
    (hatom : IsAtom v) {es : List Char} (hes : ∀ c ∈ es, isDelimiter c = false) :
    v.chars.head? ≠ some ':' ∧ IsRun (v.chars ++ '/' :: es) := by
  have hmem := List.mem_of_head? hv
  have hsegment := Value.formedSegments_iff.1 hformed v hmem
  cases v with
  | word w =>
    obtain ⟨hcolon, ds, hrun⟩ := hopens w hv
    exact ⟨hcolon, hrun.extend hatom.ne_nil hes⟩
  | integer n =>
    refine ⟨fun hcolon => ?_, isRun_integer n (List.forall_mem_cons.2 ⟨by decide, hes⟩)⟩
    exact integerText_ne (List.mem_of_head? hcolon) (by decide) (by decide) rfl
  | decimal x => exact absurd hmem (hwhole x)
  | group group => exact absurd rfl (hatom.ne_group group)
  | _ => exact hsegment.elim

theorem closesPath_atom (hcloses : ClosesPath items) {v : Value} (hv : items.getLast? = some v)
    (hatom : IsAtom v) : v.chars.getLast? ≠ some ':' := by
  have hmem := List.mem_of_getLast? hv
  have hsegment := Value.formedSegments_iff.1 hformed v hmem
  cases v with
  | word w => exact hcloses w hv
  | integer n =>
    intro hcolon
    exact integerText_ne (List.mem_of_getLast? hcolon) (by decide) (by decide) rfl
  | decimal x => exact absurd hmem (hwhole x)
  | group group => exact absurd rfl (hatom.ne_group group)
  | _ => exact hsegment.elim

theorem takeSetMark_pathPieces (hlen : 2 ≤ items.length) (hcloses : ClosesPath items) :
    takeSetMark (pathPieces items) = (false, pathPieces items) := by
  rcases takeSetMark_cases (pathPieces items) with ⟨htake, -⟩ | ⟨ps, cs, hcolon, -⟩
  · exact htake
  · obtain ⟨v, qs, hv, ⟨group, -, hends⟩ | ⟨hatom, ds, hends⟩⟩ :=
      pathPieces_last (isPiece_of_formed hformed hwhole) hlen
    · have hlast := congrArg List.getLast? (hcolon.symm.trans hends)
      simp at hlast
    · have hlast := congrArg List.getLast? (hcolon.symm.trans hends)
      simp only [List.getLast?_append, List.getLast?_singleton, Option.some_or, Option.some.injEq,
        Piece.run.injEq] at hlast
      have hcolon := congrArg List.getLast? hlast
      rw [getLast?_append_right _ hatom.ne_nil, List.getLast?_append] at hcolon
      exact absurd hcolon.symm (closesPath_atom hformed hwhole hcloses hv hatom)

theorem pathPieces_begins (hlen : 2 ≤ items.length) (hopens : OpensPath items) {cs ds : List Char}
    {ps : List Piece} (hpieces : pathPieces items = .run cs :: ps)
    (hds : ∀ c ∈ ds, isDelimiter c = false) :
    BeginsPath (cs ++ ds) ∧ (cs ++ ds).head? ≠ some ':' := by
  have hword : Piece.Formed (.run cs) :=
    pathPieces_formed hformed hwhole _ (by rw [hpieces]; exact List.mem_cons_self)
  obtain ⟨v, hv, ⟨group, p, qs, -, hhead⟩ | ⟨hatom, es, qs, hhead⟩⟩ :=
    pathPieces_head (isPiece_of_formed hformed hwhole) hlen
  · cases hpieces.symm.trans hhead
  · cases hpieces.symm.trans hhead
    have hes : ∀ c ∈ es ++ ds, isDelimiter c = false := List.forall_mem_append.2
      ⟨fun c hc => hword c (by simp [hc]), hds⟩
    obtain ⟨hcolon, hrun⟩ := opensPath_atom hformed hwhole hopens hv hatom hes
    have hassoc : v.chars ++ '/' :: es ++ ds = v.chars ++ '/' :: (es ++ ds) := by simp
    rw [hassoc]
    obtain ⟨c, chars, hc⟩ := List.exists_cons_of_ne_nil hatom.ne_nil
    have hslash := hatom.slash
    rw [hc] at hrun hcolon hslash ⊢
    refine ⟨⟨hrun, by simp, ?_⟩, hcolon⟩
    intro hhead
    obtain rfl : c = '/' := by simpa using hhead
    exact hslash List.mem_cons_self

end

theorem takeGetMark_of_ne {pieces : List Piece}
    (h : ∀ cs ps, pieces = .run cs :: ps → cs.head? ≠ some ':') :
    takeGetMark pieces = (false, pieces) := by
  rcases takeGetMark_cases pieces with ⟨htake, -⟩ | ⟨cs, ps, rfl, -⟩
  · exact htake
  · exact absurd rfl (h _ ps rfl)

theorem takeSetMark_concat (ps : List Piece) (cs : List Char) :
    takeSetMark (ps ++ [.run (cs ++ [':'])]) = (true, ps ++ [.run cs]) := by
  rcases takeSetMark_cases (ps ++ [.run (cs ++ [':'])]) with ⟨-, hlast⟩ | ⟨qs, ds, hpieces, htake⟩
  · exact absurd (by simp) (hlast (cs ++ [':']) (by simp))
  · obtain ⟨rfl, hrun⟩ := List.append_inj' hpieces rfl
    obtain rfl : cs = ds := by simpa using hrun
    exact htake

theorem chars_path (items : List Value) :
    (Value.path items).chars = ['/'].intercalate (items.map Value.chars) := by
  simp only [Value.chars, Value.mold, Value.molds_eq_map, String.toList_intercalate, List.map_map]
  rfl

theorem chars_setPath (items : List Value) :
    (Value.setPath items).chars = (Value.path items).chars ++ [':'] := by
  simp [Value.chars, Value.mold]

theorem chars_getPath (items : List Value) :
    (Value.getPath items).chars = ':' :: (Value.path items).chars := by
  simp [Value.chars, Value.mold]

theorem Linked.addGetMark {cs : List Char} {ps : List Piece} (hcs : cs ≠ [])
    (h : Linked (.run cs :: ps)) : Linked (.run (':' :: cs) :: ps) := by
  cases ps with
  | nil => trivial
  | cons q qs =>
    refine ⟨?_, h.2⟩
    cases q with
    | run ds => exact h.1
    | group items =>
      have hlast : cs.getLast? = some '/' := h.1
      have hcons := getLast?_append_right [':'] hcs
      exact hcons.trans hlast

theorem Linked.addSetMark {cs : List Char} {ps : List Piece} (hcs : cs ≠ [])
    (h : Linked (ps ++ [.run cs])) : Linked (ps ++ [.run (cs ++ [':'])]) := by
  induction ps with
  | nil => trivial
  | cons p ps ih =>
    cases ps with
    | cons q qs => exact ⟨h.1, ih h.2⟩
    | nil =>
      refine ⟨?_, trivial⟩
      cases p with
      | run ds => exact h.1
      | group items =>
        obtain ⟨c, cs, rfl⟩ := List.exists_cons_of_ne_nil hcs
        exact h.1

theorem piecesChars_append (ps qs : List Piece) :
    piecesChars (ps ++ qs) = piecesChars ps ++ piecesChars qs := List.flatMap_append

section

variable {items : List Value} (hwhole : ∀ x, Value.decimal x ∉ items)
include hwhole

theorem spells_path (h : (Value.path items).Formed) :
    Spells (pathPieces items) items (.path items) := by
  obtain ⟨hlen, hopens, hcloses, hformed⟩ := h
  have hpieces := isPiece_of_formed hformed hwhole
  have hbegins : ∀ cs ps, pathPieces items = .run cs :: ps →
      BeginsPath cs ∧ cs.head? ≠ some ':' := by
    intro cs ps hcs
    have hempty : ∀ c ∈ ([] : List Char), isDelimiter c = false := by simp
    have hhead := pathPieces_begins hformed hwhole hlen hopens hcs hempty
    rwa [List.append_nil] at hhead
  have hget := takeGetMark_of_ne fun cs ps hcs => (hbegins cs ps hcs).2
  have hset := takeSetMark_pathPieces hformed hwhole hlen hcloses
  have hvalue : assemblePath (pathPieces items) = .ok (.path items) :=
    (assemblePath_eq_ok hget hset).2 ⟨rfl, items, pathSegments_pathPieces hpieces, hlen, rfl⟩
  constructor
  · exact ⟨pathPieces_formed hformed hwhole, pathPieces_linked hpieces,
      fun cs ps hcs => (hbegins cs ps hcs).1.run⟩
  · exact piecesValue_path hvalue fun cs ps hcs => (hbegins cs ps hcs).1
  · rw [pathPieces_chars hpieces, chars_path]
  · exact fun group hgroup => group_mem_of_pathPieces hpieces hgroup

/-- A set-path that does not end in a group is the path with a colon behind its last run. -/
theorem spells_setPath (h : (Value.setPath items).Formed)
    (hlast : ∀ group, items.getLast? ≠ some (.group group)) :
    ∃ pieces, Spells pieces items (.setPath items) := by
  obtain ⟨hlen, hopens, hformed⟩ := h
  have hpieces := isPiece_of_formed hformed hwhole
  obtain ⟨v, ps, hv, ⟨group, rfl, -⟩ | ⟨hatom, ds, hends⟩⟩ := pathPieces_last hpieces hlen
  · exact absurd hv (hlast group)
  obtain ⟨cs, hcs⟩ : ∃ cs, cs = ds ++ v.chars := ⟨_, rfl⟩
  rw [← hcs] at hends
  have hne : cs ≠ [] := by
    rw [hcs]
    exact fun hnil => hatom.ne_nil (List.append_eq_nil_iff.1 hnil).2
  have hcolon : ∀ c ∈ [':'], isDelimiter c = false := List.forall_mem_singleton.2 (by decide)
  have hall := pathPieces_formed hformed hwhole
  have hlinked := pathPieces_linked hpieces
  have hsegments := pathSegments_pathPieces hpieces
  have hchars := pathPieces_chars hpieces
  have hgroups : ∀ group, Piece.group group ∈ pathPieces items → Value.group group ∈ items :=
    fun group hgroup => group_mem_of_pathPieces hpieces hgroup
  rw [hends] at hall hlinked hsegments hchars hgroups
  have hbegins : ∀ es qs, ps ++ [.run (cs ++ [':'])] = .run es :: qs →
      BeginsPath es ∧ es.head? ≠ some ':' := by
    intro es qs hes
    cases ps with
    | nil =>
      -- the last run is the first one too, and the mark stands behind it
      cases hes
      exact pathPieces_begins hformed hwhole hlen hopens hends hcolon
    | cons p ps =>
      cases hes
      have hempty : ∀ c ∈ ([] : List Char), isDelimiter c = false := by simp
      have hhead := pathPieces_begins hformed hwhole hlen hopens hends hempty
      rwa [List.append_nil] at hhead
  have hget := takeGetMark_of_ne fun es qs hes => (hbegins es qs hes).2
  have hvalue : assemblePath (ps ++ [.run (cs ++ [':'])]) = .ok (.setPath items) :=
    (assemblePath_eq_ok hget (takeSetMark_concat ps cs)).2 ⟨rfl, items, hsegments, hlen, rfl⟩
  refine ⟨ps ++ [.run (cs ++ [':'])], ⟨?_, hlinked.addSetMark hne, ?_⟩, ?_, ?_, ?_⟩
  · obtain ⟨hfront, hrun⟩ := List.forall_mem_append.1 hall
    have hword : ∀ c ∈ cs, isDelimiter c = false := List.forall_mem_singleton.1 hrun
    exact List.forall_mem_append.2
      ⟨hfront, List.forall_mem_singleton.2 (List.forall_mem_append.2 ⟨hword, hcolon⟩)⟩
  · exact fun es qs hes => (hbegins es qs hes).1.run
  · exact piecesValue_path hvalue fun es qs hes => (hbegins es qs hes).1
  · rw [chars_setPath, chars_path, ← hchars, piecesChars_append, piecesChars_append]
    simp [piecesChars, Piece.chars]
  · intro group hgroup
    refine hgroups group ?_
    simp only [List.mem_append, List.mem_singleton, reduceCtorEq, or_false] at hgroup ⊢
    exact hgroup

theorem spells_getPath (h : (Value.getPath items).Formed)
    (hfirst : ∀ group, items.head? ≠ some (.group group)) :
    ∃ pieces, Spells pieces items (.getPath items) := by
  obtain ⟨hlen, hcloses, hformed⟩ := h
  have hpieces := isPiece_of_formed hformed hwhole
  obtain ⟨v, hv, ⟨group, p, ps, rfl, -⟩ | ⟨hatom, ds, ps, hbegins⟩⟩ := pathPieces_head hpieces hlen
  · exact absurd hv (hfirst group)
  obtain ⟨cs, hcs⟩ : ∃ cs, cs = v.chars ++ '/' :: ds := ⟨_, rfl⟩
  rw [← hcs] at hbegins
  have hslash : '/' ∈ cs := by simp [hcs]
  have hall := pathPieces_formed hformed hwhole
  have hlinked := pathPieces_linked hpieces
  have hset := takeSetMark_pathPieces hformed hwhole hlen hcloses
  have hsegments := pathSegments_pathPieces hpieces
  have hchars := pathPieces_chars hpieces
  have hgroups : ∀ group, Piece.group group ∈ pathPieces items → Value.group group ∈ items :=
    fun group hgroup => group_mem_of_pathPieces hpieces hgroup
  rw [hbegins] at hall hlinked hset hsegments hchars hgroups
  obtain ⟨hword, hrest⟩ := List.forall_mem_cons.1 hall
  have hword' : ∀ c ∈ ':' :: cs, isDelimiter c = false := List.forall_mem_cons.2 ⟨by decide, hword⟩
  have hbegin : BeginsPath (':' :: cs) :=
    ⟨⟨by simp, hword', by simp, by simp, by simp⟩, List.mem_cons_of_mem _ hslash, by simp⟩
  have hget : takeGetMark (.run (':' :: cs) :: ps) = (true, .run cs :: ps) := rfl
  have hvalue : assemblePath (.run (':' :: cs) :: ps) = .ok (.getPath items) :=
    (assemblePath_eq_ok hget hset).2 ⟨rfl, items, hsegments, hlen, rfl⟩
  have hhead : ∀ es qs, Piece.run (':' :: cs) :: ps = .run es :: qs → BeginsPath es := by
    intro es qs hes
    cases hes
    exact hbegin
  refine ⟨.run (':' :: cs) :: ps, ⟨?_, hlinked.addGetMark (List.ne_nil_of_mem hslash), ?_⟩, ?_, ?_, ?_⟩
  · exact List.forall_mem_cons.2 ⟨hword', hrest⟩
  · exact fun es qs hes => (hhead es qs hes).run
  · exact piecesValue_path hvalue hhead
  · rw [chars_getPath, chars_path, ← hchars]
    rfl
  · intro group hgroup
    refine hgroups group ?_
    simp only [List.mem_cons, reduceCtorEq, false_or] at hgroup ⊢
    exact hgroup

end

end Homoicon.Source
