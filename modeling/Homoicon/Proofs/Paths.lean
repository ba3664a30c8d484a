import Homoicon.Proofs.Lexemes
import Homoicon.Proofs.Scanned

/-!
# Paths in pieces

What scanning can give is formed: words that are read as they are written, tags, texts, and paths
whose first and last segments do not look like something else.  A path is written in runs and groups
that are linked by slashes, and a path that is put together of formed pieces is formed.
-/

namespace Homoicon

open Source

/-- Characters of a word that is a segment of a path. -/
structure Source.IsSegment (cs : List Char) : Prop where
  ne_nil : cs ≠ []
  word : ∀ c ∈ cs, isDelimiter c = false
  slash : '/' ∉ cs
  notNumber : readNumber? cs = none

/-- A path can be begun with its first segment, and the path does not look like a get-path. -/
def Source.OpensPath (items : List Value) : Prop :=
  ∀ w, items.head? = some (.word w) →
    w.toList.head? ≠ some ':' ∧ ∃ ds, IsRun (w.toList ++ '/' :: ds)

/-- The path does not look like a set-path. -/
def Source.ClosesPath (items : List Value) : Prop :=
  ∀ w, items.getLast? = some (.word w) → w.toList.getLast? ≠ some ':'

def Value.chars (v : Value) : List Char := v.mold.toList

/-- The written form of a value is a run that is read as the value. -/
def Value.IsWritten (v : Value) : Prop := IsRun v.chars ∧ runValue v.chars = .ok v

/-- Whether an at sign can stand before the value. -/
def Value.MayBeSilenced : Value → Prop
  | .text _ | .comma => False
  | _ => True

mutual

def Value.Formed : Value → Prop
  | .void | .blank | .integer _ | .decimal _ | .text _ | .comma => True
  | .word name => (Value.word name).IsWritten
  | .setWord name => (Value.setWord name).IsWritten
  | .getWord name => (Value.getWord name).IsWritten
  | .refinement name => (Value.refinement name).IsWritten
  | .tag s => IsTag s.toList
  | .block items | .group items => Value.FormedAll items
  | .path items =>
    2 ≤ items.length ∧ OpensPath items ∧ ClosesPath items ∧ Value.FormedSegments items
  | .setPath items => 2 ≤ items.length ∧ OpensPath items ∧ Value.FormedSegments items
  | .getPath items => 2 ≤ items.length ∧ ClosesPath items ∧ Value.FormedSegments items
  | .sym payload => payload.Formed ∧ payload.MayBeSilenced
  | .quoted payload => payload.Formed
  | _ => False

def Value.FormedAll : List Value → Prop
  | [] => True
  | v :: vs => v.Formed ∧ Value.FormedAll vs

def Value.FormedSegments : List Value → Prop
  | [] => True
  | v :: vs => v.FormedSegment ∧ Value.FormedSegments vs

def Value.FormedSegment : Value → Prop
  | .word name => IsSegment name.toList
  | .integer _ | .decimal _ => True
  | .group items => Value.FormedAll items
  | _ => False

end

theorem Value.formedAll_iff {vs : List Value} : Value.FormedAll vs ↔ ∀ v ∈ vs, v.Formed := by
  induction vs with
  | nil => simp [Value.FormedAll]
  | cons v vs ih => simp [Value.FormedAll, ih]

theorem Value.formedSegments_iff {vs : List Value} :
    Value.FormedSegments vs ↔ ∀ v ∈ vs, v.FormedSegment := by
  induction vs with
  | nil => simp [Value.FormedSegments]
  | cons v vs ih => simp [Value.FormedSegments, ih]

namespace Source

/-! ### Segments -/

theorem segments_ne_nil (cs : List Char) : segments cs ≠ [] := by
  induction cs with
  | nil => simp [segments]
  | cons c cs ih =>
    simp only [segments]
    split
    · simp
    · split <;> simp

theorem segments_cons_of_ne {c : Char} (hc : c ≠ '/') {cs s : List Char} {rest : List (List Char)}
    (h : segments cs = s :: rest) : segments (c :: cs) = (c :: s) :: rest := by
  simp [segments, hc, h]

theorem segments_join (cs : List Char) :
    ['/'].intercalate (segments cs) = cs ∧ ∀ s ∈ segments cs, '/' ∉ s := by
  induction cs with
  | nil => simp [segments]
  | cons c cs ih =>
    obtain ⟨s, rest, hs⟩ := List.exists_cons_of_ne_nil (segments_ne_nil cs)
    obtain ⟨hjoin, hfree⟩ := ih
    by_cases hc : c = '/'
    · subst hc
      simp only [segments, if_true]
      refine ⟨?_, List.forall_mem_cons.2 ⟨by simp, hfree⟩⟩
      rw [List.intercalate_cons_of_ne_nil (segments_ne_nil cs), hjoin]
      rfl
    · rw [segments_cons_of_ne hc hs]
      rw [hs] at hjoin hfree
      obtain ⟨hfirst, hothers⟩ := List.forall_mem_cons.1 hfree
      refine ⟨?_, List.forall_mem_cons.2 ⟨?_, hothers⟩⟩
      · rw [List.intercalate_cons_cons_left, hjoin]
      · simpa [Ne.symm hc] using hfirst

theorem segments_of_free {cs : List Char} (h : '/' ∉ cs) : segments cs = [cs] := by
  induction cs with
  | nil => rfl
  | cons c cs ih =>
    simp only [List.mem_cons, not_or] at h
    exact segments_cons_of_ne (Ne.symm h.1) (ih h.2)

theorem segments_append {cs : List Char} (h : '/' ∉ cs) (ds : List Char) :
    segments (cs ++ '/' :: ds) = cs :: segments ds := by
  induction cs with
  | nil => simp [segments]
  | cons c cs ih =>
    simp only [List.mem_cons, not_or] at h
    exact segments_cons_of_ne (Ne.symm h.1) (ih h.2)

theorem head_segments {cs w : List Char} (h : (segments cs).head? = some w) :
    (segments cs).length = 1 ∧ cs = w ∨ ∃ ds, cs = w ++ '/' :: ds := by
  have hjoin := (segments_join cs).1
  match hparts : segments cs with
  | [] => exact absurd hparts (segments_ne_nil cs)
  | [v] =>
    rw [hparts] at h hjoin
    cases h
    exact .inl ⟨rfl, by simpa using hjoin.symm⟩
  | v :: u :: rest =>
    rw [hparts] at h hjoin
    cases h
    refine .inr ⟨['/'].intercalate (u :: rest), ?_⟩
    rw [← hjoin, List.intercalate_cons_cons]
    simp

theorem intercalate_getLast? {parts : List (List Char)} {w : List Char}
    (h : parts.getLast? = some w) : ∃ ds, ['/'].intercalate parts = ds ++ w := by
  induction parts with
  | nil => cases h
  | cons v rest ih =>
    cases rest with
    | nil =>
      cases h
      exact ⟨[], by simp⟩
    | cons u rest =>
      rw [List.getLast?_cons_cons] at h
      obtain ⟨ds, hds⟩ := ih h
      exact ⟨v ++ ['/'] ++ ds, by simp [List.intercalate_cons_cons, hds]⟩

theorem getLast?_segments {cs w : List Char} (h : (segments cs).getLast? = some w) :
    ∃ ds, cs = ds ++ w := by
  obtain ⟨ds, hds⟩ := intercalate_getLast? h
  exact ⟨ds, by rw [← hds, (segments_join cs).1]⟩

theorem mem_of_mem_segments {cs s : List Char} (hs : s ∈ segments cs) {c : Char} (hc : c ∈ s) :
    c ∈ cs := by
  induction cs generalizing s with
  | nil =>
    simp only [segments, List.mem_singleton] at hs
    subst hs
    exact hc
  | cons d cs ih =>
    by_cases hd : d = '/'
    · subst hd
      simp only [segments, if_true, List.mem_cons] at hs
      rcases hs with rfl | hs
      · cases hc
      · exact List.mem_cons_of_mem _ (ih hs hc)
    · obtain ⟨first, rest, hparts⟩ := List.exists_cons_of_ne_nil (segments_ne_nil cs)
      rw [segments_cons_of_ne hd hparts, List.mem_cons] at hs
      rcases hs with rfl | hs
      · rcases List.mem_cons.1 hc with rfl | hc
        · exact List.mem_cons_self
        · exact List.mem_cons_of_mem _ (ih (hparts ▸ List.mem_cons_self) hc)
      · exact List.mem_cons_of_mem _ (ih (hparts ▸ List.mem_cons_of_mem _ hs) hc)

theorem readNumber?_eq_some {cs : List Char} {v : Value} (h : readNumber? cs = some v) :
    (∃ n, v = .integer n) ∨ ∃ x, v = .decimal x := by
  unfold readNumber? at h
  split at h
  · split at h
    · cases h
      exact .inl ⟨_, rfl⟩
    · obtain ⟨x, -, rfl⟩ := Option.map_eq_some_iff.1 h
      exact .inr ⟨x, rfl⟩
  · cases h

theorem segmentValue_cases (cs : List Char) :
    (∃ n, segmentValue cs = .integer n) ∨ (∃ x, segmentValue cs = .decimal x) ∨
      readNumber? cs = none ∧ segmentValue cs = .word (String.ofList cs) := by
  unfold segmentValue
  cases hnumber : readNumber? cs with
  | none => exact .inr (.inr ⟨rfl, rfl⟩)
  | some v =>
    obtain ⟨n, rfl⟩ | ⟨x, rfl⟩ := readNumber?_eq_some hnumber
    · exact .inl ⟨n, rfl⟩
    · exact .inr (.inl ⟨x, rfl⟩)

theorem toList_of_segmentValue {cs : List Char} {w : String} (h : segmentValue cs = .word w) :
    w.toList = cs := by
  obtain ⟨n, hn⟩ | ⟨x, hx⟩ | ⟨-, hw⟩ := segmentValue_cases cs
  · cases hn.symm.trans h
  · cases hx.symm.trans h
  · cases hw.symm.trans h
    exact String.toList_ofList

theorem segmentValue_formed {cs : List Char} (hne : cs ≠ [])
    (hword : ∀ c ∈ cs, isDelimiter c = false) (hslash : '/' ∉ cs) :
    (segmentValue cs).FormedSegment := by
  obtain ⟨n, hn⟩ | ⟨x, hx⟩ | ⟨hnumber, hw⟩ := segmentValue_cases cs
  · rw [hn]
    trivial
  · rw [hx]
    trivial
  · rw [hw]
    show IsSegment (String.ofList cs).toList
    rw [String.toList_ofList]
    exact ⟨hne, hword, hslash, hnumber⟩

/-! ### Pieces -/

/-- The characters of a run without the slashes that it gives up. -/
def innerChars (first last : Bool) (cs : List Char) : List Char :=
  let front := if first then cs else (stripFront? '/' cs).getD cs
  if last then front else (stripBack? '/' front).getD front

theorem segmentValues_run (first last : Bool) (cs : List Char) :
    (Piece.run cs).segmentValues first last =
      if (innerChars first last cs).isEmpty then .ok []
      else if (segments (innerChars first last cs)).any List.isEmpty then
        .error (.emptySegment (String.ofList cs))
      else .ok ((segments (innerChars first last cs)).map segmentValue) := rfl

theorem segmentValues_run_eq_ok {first last : Bool} {cs : List Char} {items : List Value}
    (h : (Piece.run cs).segmentValues first last = .ok items) :
    items = [] ∨
      (∀ s ∈ segments (innerChars first last cs), s ≠ []) ∧
        items = (segments (innerChars first last cs)).map segmentValue := by
  rw [segmentValues_run] at h
  split at h
  · cases h
    exact .inl rfl
  · split at h
    · cases h
    · rename_i hany
      cases h
      refine .inr ⟨fun s hs hnil => hany ?_, rfl⟩
      exact List.any_eq_true.2 ⟨s, hs, by rw [hnil]; rfl⟩

theorem stripFront?_getD (c : Char) (cs : List Char) : ∃ ds, cs = ds ++ (stripFront? c cs).getD cs := by
  cases cs with
  | nil => exact ⟨[], rfl⟩
  | cons d cs =>
    by_cases h : d = c
    · exact ⟨[d], by simp [stripFront?, h]⟩
    · exact ⟨[], by simp [stripFront?, h]⟩

theorem stripFront?_eq_some {c : Char} {cs ds : List Char} (h : stripFront? c cs = some ds) :
    cs = c :: ds := by
  cases cs with
  | nil => cases h
  | cons d cs =>
    simp only [stripFront?] at h
    split at h
    · rename_i hd
      cases h
      rw [hd]
    · cases h

theorem stripBack?_eq_some {c : Char} {cs ds : List Char} (h : stripBack? c cs = some ds) :
    cs = ds ++ [c] := by
  unfold stripBack? at h
  split at h
  · rename_i hlast
    cases h
    obtain ⟨ys, rfl⟩ := List.getLast?_eq_some_iff.1 hlast
    simp
  · cases h

theorem stripBack?_getD (c : Char) (cs : List Char) :
    ∃ ds, cs = (stripBack? c cs).getD cs ++ ds := by
  cases h : stripBack? c cs with
  | none => exact ⟨[], by simp⟩
  | some ds => exact ⟨[c], stripBack?_eq_some h⟩

theorem innerChars_infix (first last : Bool) (cs : List Char) :
    ∃ pre post, cs = pre ++ innerChars first last cs ++ post ∧ (first = true → pre = []) ∧
      (last = true → post = []) := by
  unfold innerChars
  cases first with
  | true =>
    cases last with
    | true => exact ⟨[], [], by simp, fun _ => rfl, fun _ => rfl⟩
    | false =>
      obtain ⟨post, hpost⟩ := stripBack?_getD '/' cs
      exact ⟨[], post, by simpa using hpost, fun _ => rfl, nofun⟩
  | false =>
    obtain ⟨pre, hpre⟩ := stripFront?_getD '/' cs
    cases last with
    | true => exact ⟨pre, [], by simpa using hpre, nofun, fun _ => rfl⟩
    | false =>
      obtain ⟨post, hpost⟩ := stripBack?_getD '/' ((stripFront? '/' cs).getD cs)
      refine ⟨pre, post, ?_, nofun, nofun⟩
      simp only [Bool.false_eq_true, if_false]
      rw [List.append_assoc, ← hpost]
      exact hpre

def Piece.Formed : Piece → Prop
  | .run cs => ∀ c ∈ cs, isDelimiter c = false
  | .group items => Value.FormedAll items

theorem Piece.Formed.segmentValues {p : Piece} (hp : p.Formed) {first last : Bool}
    {items : List Value} (h : p.segmentValues first last = .ok items) :
    Value.FormedSegments items := by
  cases p with
  | group group =>
    cases h
    exact ⟨hp, trivial⟩
  | run cs =>
    rcases segmentValues_run_eq_ok h with rfl | ⟨hne, rfl⟩
    · trivial
    · obtain ⟨pre, post, hcs, -, -⟩ := innerChars_infix first last cs
      refine Value.formedSegments_iff.2 fun v hv => ?_
      obtain ⟨s, hs, rfl⟩ := List.mem_map.1 hv
      have hword : ∀ c ∈ s, isDelimiter c = false := by
        intro c hc
        refine hp c ?_
        rw [hcs]
        have hmem := mem_of_mem_segments hs hc
        simp [hmem]
      exact segmentValue_formed (hne s hs) hword ((segments_join _).2 s hs)

theorem pathSegments_cons {first : Bool} {p : Piece} {ps : List Piece} (hps : ps ≠ [])
    {items : List Value} (h : pathSegments first (p :: ps) = .ok items) :
    ∃ here rest, p.segmentValues first false = .ok here ∧ pathSegments false ps = .ok rest ∧
      items = here ++ rest := by
  obtain ⟨q, qs, rfl⟩ := List.exists_cons_of_ne_nil hps
  obtain ⟨here, hhere, h⟩ := except_bind_eq_ok.1 h
  obtain ⟨rest, hrest, h⟩ := except_bind_eq_ok.1 h
  cases h
  exact ⟨here, rest, hhere, hrest, rfl⟩

theorem pathSegments_formed {pieces : List Piece} (hp : ∀ p ∈ pieces, p.Formed) {first : Bool}
    {items : List Value} (h : pathSegments first pieces = .ok items) :
    Value.FormedSegments items := by
  induction pieces generalizing first items with
  | nil =>
    cases h
    trivial
  | cons p ps ih =>
    obtain ⟨hhead, htail⟩ := List.forall_mem_cons.1 hp
    by_cases hps : ps = []
    · subst hps
      exact hhead.segmentValues h
    · obtain ⟨here, rest, hhere, hrest, rfl⟩ := pathSegments_cons hps h
      refine Value.formedSegments_iff.2 (List.forall_mem_append.2 ⟨?_, ?_⟩)
      · exact Value.formedSegments_iff.1 (hhead.segmentValues hhere)
      · exact Value.formedSegments_iff.1 (ih htail hrest)

/-! ### The ends of a path -/

theorem getLast?_append_right {α : Type} (xs : List α) {ys : List α} (h : ys ≠ []) :
    (xs ++ ys).getLast? = ys.getLast? := by
  rw [List.getLast?_append, List.getLast?_eq_some_getLast h]
  rfl

/-- A piece that goes on with the one before it: a group after a run that ends in a slash, or a run
that starts with one after a group. -/
def Piece.Links : Piece → Piece → Prop
  | .run cs, .group _ => cs.getLast? = some '/'
  | .group _, .run cs => cs.head? = some '/'
  | _, _ => False

def Linked : List Piece → Prop
  | p :: q :: ps => p.Links q ∧ Linked (q :: ps)
  | _ => True

theorem Linked.tail {p : Piece} {ps : List Piece} (h : Linked (p :: ps)) : Linked ps := by
  cases ps with
  | nil => trivial
  | cons q qs => exact h.2

theorem Linked.concat {ps : List Piece} {q : Piece} (h : Linked ps)
    (hlink : ∀ p, ps.getLast? = some p → p.Links q) : Linked (ps ++ [q]) := by
  induction ps with
  | nil => trivial
  | cons p rest ih =>
    cases rest with
    | nil => exact ⟨hlink p rfl, trivial⟩
    | cons r rest =>
      refine ⟨h.1, ih h.2 fun p' hp' => hlink p' ?_⟩
      rw [List.getLast?_cons_cons]
      exact hp'

theorem head?_pathSegments_group {first : Bool} {group : List Value} {ps : List Piece}
    {items : List Value} (h : pathSegments first (.group group :: ps) = .ok items) :
    items.head? = some (.group group) := by
  by_cases hps : ps = []
  · subst hps
    cases h
    rfl
  · obtain ⟨here, rest, hhere, -, rfl⟩ := pathSegments_cons hps h
    cases hhere
    rfl

theorem innerChars_of_getLast? {cs : List Char} (h : cs.getLast? = some '/') :
    cs = innerChars true false cs ++ ['/'] := by
  have hstrip : stripBack? '/' cs = some cs.dropLast := by simp [stripBack?, h]
  have hinner : innerChars true false cs = cs.dropLast := by simp [innerChars, hstrip]
  rw [hinner]
  exact stripBack?_eq_some hstrip

theorem pathSegments_opens {cs : List Char} {ps : List Piece} {items : List Value} {w : String}
    (h : pathSegments true (.run cs :: ps) = .ok items) (hlen : 2 ≤ items.length)
    (hlink : Linked (.run cs :: ps)) (hw : items.head? = some (.word w)) :
    ∃ ds, cs = w.toList ++ '/' :: ds := by
  by_cases hps : ps = []
  · -- the run is the whole path, so the slash is the one before the second segment
    subst hps
    rcases segmentValues_run_eq_ok h with rfl | ⟨-, rfl⟩
    · cases hw
    · rw [List.head?_map] at hw
      obtain ⟨s, hs, hsw⟩ := Option.map_eq_some_iff.1 hw
      rw [toList_of_segmentValue hsw]
      rcases head_segments hs with ⟨hone, -⟩ | hslash
      · rw [List.length_map, hone] at hlen
        omega
      · exact hslash
  · obtain ⟨here, rest, hhere, hrest, rfl⟩ := pathSegments_cons hps h
    obtain ⟨q, qs, rfl⟩ := List.exists_cons_of_ne_nil hps
    cases q with
    | run ds => exact absurd hlink.1 (by simp [Piece.Links])
    | group group =>
      -- the run gives up its last slash to the group
      have hcs := innerChars_of_getLast? hlink.1
      rcases segmentValues_run_eq_ok hhere with rfl | ⟨-, rfl⟩
      · rw [List.nil_append, head?_pathSegments_group hrest] at hw
        cases hw
      · obtain ⟨first, others, hparts⟩ :=
          List.exists_cons_of_ne_nil (segments_ne_nil (innerChars true false cs))
        have hhead : (segments (innerChars true false cs)).head? = some first := by rw [hparts]; rfl
        rw [hparts] at hw
        have hfirst : segmentValue first = .word w := by simpa using hw
        rw [toList_of_segmentValue hfirst]
        rcases head_segments hhead with ⟨-, hall⟩ | ⟨ds, hds⟩
        · exact ⟨[], by rw [hcs, hall]⟩
        · exact ⟨ds ++ ['/'], by rw [hcs, hds]; simp⟩

theorem pathSegments_closes {first : Bool} {pieces : List Piece} {items : List Value} {w : String}
    (h : pathSegments first pieces = .ok items) (hlink : Linked pieces)
    (hcolon : ∀ cs, pieces.getLast? = some (.run cs) → cs.getLast? ≠ some ':')
    (hw : items.getLast? = some (.word w)) : w.toList.getLast? ≠ some ':' := by
  induction pieces generalizing first items with
  | nil =>
    cases h
    cases hw
  | cons p ps ih =>
    by_cases hps : ps = []
    · subst hps
      cases p with
      | group group =>
        cases h
        cases hw
      | run cs =>
        rcases segmentValues_run_eq_ok h with rfl | ⟨hne, rfl⟩
        · cases hw
        · rw [List.getLast?_map] at hw
          obtain ⟨s, hs, hsw⟩ := Option.map_eq_some_iff.1 hw
          obtain ⟨pre, post, hcs, -, hpost⟩ := innerChars_infix first true cs
          obtain ⟨ds, hds⟩ := getLast?_segments hs
          have hlast : cs.getLast? = s.getLast? := by
            rw [hcs, hpost rfl, hds, List.append_nil, ← List.append_assoc,
              getLast?_append_right _ (hne s (List.mem_of_getLast? hs))]
          rw [toList_of_segmentValue hsw, ← hlast]
          exact hcolon cs rfl
    · obtain ⟨here, rest, hhere, hrest, rfl⟩ := pathSegments_cons hps h
      obtain ⟨q, qs, rfl⟩ := List.exists_cons_of_ne_nil hps
      by_cases hnil : rest = []
      · -- nothing comes of the last run, so the segment is the group before it
        subst hnil
        cases q with
        | group group =>
          have hhead := head?_pathSegments_group hrest
          cases hhead
        | run cs =>
          cases p with
          | run ds => exact absurd hlink.1 (by simp [Piece.Links])
          | group group =>
            cases hhere
            cases hw
      · rw [getLast?_append_right _ hnil] at hw
        refine ih hrest hlink.2 (fun cs hcs => hcolon cs ?_) hw
        rw [List.getLast?_cons_cons]
        exact hcs

/-! ### Marks on paths -/

theorem takeGetMark_cases (pieces : List Piece) :
    (takeGetMark pieces = (false, pieces) ∧
      ∀ cs ps, pieces = .run cs :: ps → cs.head? ≠ some ':') ∨
      ∃ cs ps, pieces = .run (':' :: cs) :: ps ∧ takeGetMark pieces = (true, .run cs :: ps) := by
  match pieces with
  | [] => exact .inl ⟨rfl, fun _ _ h => by cases h⟩
  | .group items :: ps => exact .inl ⟨rfl, fun _ _ h => by cases h⟩
  | .run [] :: ps =>
    refine .inl ⟨rfl, fun cs _ h => ?_⟩
    cases h
    exact nofun
  | .run (c :: cs) :: ps =>
    by_cases hc : c = ':'
    · subst hc
      exact .inr ⟨cs, ps, rfl, rfl⟩
    · refine .inl ⟨by simp [takeGetMark, stripFront?, hc], fun ds _ h => ?_⟩
      cases h
      simpa using hc

theorem takeSetMark_cons (p : Piece) {ps : List Piece} (h : ps ≠ []) :
    takeSetMark (p :: ps) = ((takeSetMark ps).1, p :: (takeSetMark ps).2) := by
  obtain ⟨q, qs, rfl⟩ := List.exists_cons_of_ne_nil h
  cases p <;> rfl

theorem takeSetMark_cases (pieces : List Piece) :
    (takeSetMark pieces = (false, pieces) ∧
      ∀ cs, pieces.getLast? = some (.run cs) → cs.getLast? ≠ some ':') ∨
      ∃ ps cs, pieces = ps ++ [.run (cs ++ [':'])] ∧
        takeSetMark pieces = (true, ps ++ [.run cs]) := by
  induction pieces with
  | nil => exact .inl ⟨rfl, fun _ h => by cases h⟩
  | cons p ps ih =>
    by_cases hps : ps = []
    · subst hps
      cases p with
      | group items => exact .inl ⟨rfl, fun _ h => by cases h⟩
      | run cs =>
        cases hstrip : stripBack? ':' cs with
        | some ds =>
          refine .inr ⟨[], ds, ?_, by simp [takeSetMark, hstrip]⟩
          rw [stripBack?_eq_some hstrip]
          rfl
        | none =>
          refine .inl ⟨by simp [takeSetMark, hstrip], fun ds h => ?_⟩
          cases h
          intro hlast
          simp [stripBack?, hlast] at hstrip
    · rw [takeSetMark_cons p hps]
      rcases ih with ⟨htake, hcolon⟩ | ⟨qs, cs, rfl, htake⟩
      · refine .inl ⟨by rw [htake], fun cs hcs => hcolon cs ?_⟩
        obtain ⟨q, qs, rfl⟩ := List.exists_cons_of_ne_nil hps
        rw [List.getLast?_cons_cons] at hcs
        exact hcs
      · exact .inr ⟨p :: qs, cs, rfl, by rw [htake]; rfl⟩

theorem assemblePath_eq_ok {pieces ps qs : List Piece} {get set : Bool} {v : Value}
    (hget : takeGetMark pieces = (get, ps)) (hset : takeSetMark ps = (set, qs)) :
    assemblePath pieces = .ok v ↔ (get && set) = false ∧ ∃ items, pathSegments true qs = .ok items ∧
      2 ≤ items.length ∧
      v = if set then .setPath items else if get then .getPath items else .path items := by
  have heq : assemblePath pieces =
      if get && set then .error .getAndSet
      else do
        let items ← pathSegments true qs
        if items.length < 2 then .error .shortPath
        else return if set then .setPath items else if get then .getPath items else .path items := by
    simp only [assemblePath, hget, hset]
  rw [heq]
  cases hmarks : get && set with
  | true =>
    constructor
    · intro h
      cases h
    · rintro ⟨h, -⟩
      cases h
  | false =>
    constructor
    · intro h
      obtain ⟨items, hitems, h⟩ := except_bind_eq_ok.1 h
      split at h
      · cases h
      · rename_i hlen
        cases h
        exact ⟨rfl, items, hitems, Nat.le_of_not_lt hlen, rfl⟩
    · rintro ⟨-, items, hitems, hlen, rfl⟩
      refine except_bind_eq_ok.2 ⟨items, hitems, ?_⟩
      rw [if_neg (Nat.not_lt.2 hlen)]
      rfl

theorem Linked.dropGetMark {cs : List Char} {ps : List Piece}
    (h : Linked (.run (':' :: cs) :: ps)) : Linked (.run cs :: ps) := by
  cases ps with
  | nil => trivial
  | cons q qs =>
    refine ⟨?_, h.2⟩
    cases q with
    | run ds => exact h.1
    | group items =>
      have hlast : (':' :: cs).getLast? = some '/' := h.1
      cases cs with
      | nil => cases hlast
      | cons c cs =>
        rw [List.getLast?_cons_cons] at hlast
        exact hlast

theorem Linked.dropSetMark {cs : List Char} {ps : List Piece}
    (h : Linked (ps ++ [.run (cs ++ [':'])])) : Linked (ps ++ [.run cs]) := by
  induction ps with
  | nil => trivial
  | cons p ps ih =>
    cases ps with
    | cons q qs => exact ⟨h.1, ih h.2⟩
    | nil =>
      refine ⟨?_, trivial⟩
      cases p with
      | run ds => exact h.1
      | group items =>
        have hhead : (cs ++ [':']).head? = some '/' := h.1
        cases cs with
        | nil => cases hhead
        | cons c cs => exact hhead

/-- Pieces that may make a path: each goes on with the one before, and the first is read as it
stands. -/
structure PathPieces (pieces : List Piece) : Prop where
  formed : ∀ p ∈ pieces, p.Formed
  linked : Linked pieces
  begins : ∀ cs ps, pieces = .run cs :: ps → IsRun cs

theorem PathPieces.nil : PathPieces [] := ⟨by simp, trivial, fun _ _ h => by cases h⟩

theorem PathPieces.run {cs : List Char} (h : IsRun cs) : PathPieces [.run cs] := by
  refine ⟨List.forall_mem_singleton.2 h.word, trivial, ?_⟩
  rintro ds ps ⟨⟩
  exact h

theorem PathPieces.concat {ps : List Piece} {q : Piece} (hp : PathPieces ps) (hq : q.Formed)
    (hlink : ∀ p, ps.getLast? = some p → p.Links q)
    (hfirst : ps ≠ [] ∨ ∃ items, q = .group items) : PathPieces (ps ++ [q]) := by
  refine ⟨List.forall_mem_append.2 ⟨hp.formed, List.forall_mem_singleton.2 hq⟩,
    hp.linked.concat hlink, fun cs qs h => ?_⟩
  cases ps with
  | nil =>
    obtain ⟨items, rfl⟩ := hfirst.resolve_left fun h => h rfl
    cases h
  | cons p ps =>
    cases h
    exact hp.begins cs ps rfl

theorem opensPath_of_run {cs : List Char} (hrun : IsRun cs) (hcolon : cs.head? ≠ some ':')
    {w : List Char} (hw : w ≠ []) (h : ∃ ds, cs = w ++ '/' :: ds) :
    w.head? ≠ some ':' ∧ ∃ ds, IsRun (w ++ '/' :: ds) := by
  obtain ⟨ds, rfl⟩ := h
  refine ⟨?_, ds, hrun⟩
  obtain ⟨c, w, rfl⟩ := List.exists_cons_of_ne_nil hw
  exact hcolon

theorem word_ne_nil {items : List Value} (h : Value.FormedSegments items) {w : String}
    (hw : items.head? = some (.word w)) : w.toList ≠ [] := by
  have hsegment := Value.formedSegments_iff.1 h _ (List.mem_of_head? hw)
  exact IsSegment.ne_nil hsegment

theorem PathPieces.opensPath {pieces : List Piece} (hp : PathPieces pieces)
    (hget : ∀ cs ps, pieces = .run cs :: ps → cs.head? ≠ some ':') {items : List Value}
    (h : pathSegments true pieces = .ok items) (hlen : 2 ≤ items.length) : OpensPath items := by
  intro w hw
  have hne := word_ne_nil (pathSegments_formed hp.formed h) hw
  match pieces with
  | [] =>
    cases h
    cases hw
  | .group group :: ps =>
    rw [head?_pathSegments_group h] at hw
    cases hw
  | .run cs :: ps =>
    exact opensPath_of_run (hp.begins cs ps rfl) (hget cs ps rfl) hne
      (pathSegments_opens h hlen hp.linked hw)

/-- The first segment of a set-path stands as in the path without the mark. -/
theorem PathPieces.opensSetPath {ps : List Piece} {cs : List Char}
    (hp : PathPieces (ps ++ [.run (cs ++ [':'])]))
    (hget : ∀ ds qs, ps ++ [.run (cs ++ [':'])] = .run ds :: qs → ds.head? ≠ some ':')
    {items : List Value} (h : pathSegments true (ps ++ [.run cs]) = .ok items)
    (hlen : 2 ≤ items.length) (hformed : Value.FormedSegments items) : OpensPath items := by
  intro w hw
  have hne := word_ne_nil hformed hw
  match ps with
  | [] =>
    obtain ⟨ds, hds⟩ := pathSegments_opens h hlen trivial hw
    exact opensPath_of_run (hp.begins _ [] rfl) (hget _ [] rfl) hne
      ⟨ds ++ [':'], by rw [hds]; simp⟩
  | .group group :: ps =>
    rw [head?_pathSegments_group h] at hw
    cases hw
  | .run ds :: ps =>
    exact opensPath_of_run (hp.begins ds _ rfl) (hget ds _ rfl) hne
      (pathSegments_opens h hlen hp.linked.dropSetMark hw)

theorem PathPieces.assemblePath {pieces : List Piece} (hp : PathPieces pieces) {v : Value}
    (h : assemblePath pieces = .ok v) : v.Formed ∧ v.MayBeSilenced := by
  rcases takeGetMark_cases pieces with ⟨hget, hcolon⟩ | ⟨cs, ps, rfl, hget⟩
  · rcases takeSetMark_cases pieces with ⟨hset, hlast⟩ | ⟨ps, cs, rfl, hset⟩
    · -- no mark
      obtain ⟨-, items, hitems, hlen, rfl⟩ := (assemblePath_eq_ok hget hset).1 h
      have hopens := hp.opensPath hcolon hitems hlen
      have hcloses : ClosesPath items := fun w hw => pathSegments_closes hitems hp.linked hlast hw
      exact ⟨⟨hlen, hopens, hcloses, pathSegments_formed hp.formed hitems⟩, trivial⟩
    · -- a set mark: without it the last run is shorter
      obtain ⟨-, items, hitems, hlen, rfl⟩ := (assemblePath_eq_ok hget hset).1 h
      have hrun := hp.formed (.run (cs ++ [':'])) (by simp)
      have hpieces : ∀ p ∈ ps ++ [.run cs], p.Formed := List.forall_mem_append.2
        ⟨fun p hp' => hp.formed p (List.mem_append_left _ hp'),
          List.forall_mem_singleton.2 fun c hc => hrun c (List.mem_append_left _ hc)⟩
      have hformed := pathSegments_formed hpieces hitems
      exact ⟨⟨hlen, hp.opensSetPath hcolon hitems hlen hformed, hformed⟩, trivial⟩
  · rcases takeSetMark_cases (.run cs :: ps) with ⟨hset, hlast⟩ | ⟨qs, ds, -, hset⟩
    · -- a get mark: without it the first run is shorter
      obtain ⟨-, items, hitems, hlen, rfl⟩ := (assemblePath_eq_ok hget hset).1 h
      obtain ⟨hrun, hrest⟩ := List.forall_mem_cons.1 hp.formed
      have hformed : ∀ p ∈ Piece.run cs :: ps, p.Formed := List.forall_mem_cons.2
        ⟨fun c hc => hrun c (List.mem_cons_of_mem _ hc), hrest⟩
      have hcloses : ClosesPath items :=
        fun w hw => pathSegments_closes hitems hp.linked.dropGetMark hlast hw
      exact ⟨⟨hlen, hcloses, pathSegments_formed hformed hitems⟩, trivial⟩
    · obtain ⟨hmarks, -⟩ := (assemblePath_eq_ok hget hset).1 h
      cases hmarks

end Source

end Homoicon
