import Mathlib.Data.List.Basic
import Mathlib.Data.List.Induction
import Homoicon.Interactive.Assistant

/-!
# Completing words

The word before the cursor goes back to the last separator.  What completes it are the known words
that begin like it, in ascending order.  The offset at which the word begins is taken to be one byte
behind the start of that separator: the completion of a word behind a separator of several bytes,
such as a no-break space, would begin inside of the separator, and there is none.
-/

namespace Homoicon

namespace Text

theorem takeBytes?_append (front rest : List Char) (n : Nat) :
    takeBytes? (front ++ rest) (byteLength front + n) = (takeBytes? rest n).map (front ++ ·) := by
  induction front with
  | nil => simp
  | cons c front ih =>
    have hpos := c.utf8Size_pos
    obtain ⟨k, hk⟩ : ∃ k, byteLength (c :: front) + n = k + 1 :=
      ⟨byteLength (c :: front) + n - 1, by rw [byteLength_cons]; omega⟩
    have hfits : c.utf8Size ≤ k + 1 := by
      rw [← hk, byteLength_cons]
      omega
    have hrest : k + 1 - c.utf8Size = byteLength front + n := by
      rw [← hk, byteLength_cons]
      omega
    rw [hk, List.cons_append, takeBytes?, if_pos hfits, hrest, ih, Option.map_map]
    rfl

theorem takeBytes?_zero (cs : List Char) : takeBytes? cs 0 = some [] := by
  cases cs <;> rfl

theorem takeBytes?_inside {c : Char} {n : Nat} (hpos : 0 < n) (hlt : n < c.utf8Size)
    (rest : List Char) : takeBytes? (c :: rest) n = none := by
  obtain ⟨k, rfl⟩ : ∃ k, n = k + 1 := ⟨n - 1, by omega⟩
  rw [takeBytes?, if_neg (Nat.not_le.2 hlt)]

theorem takeBytes?_byteLength (front rest : List Char) :
    takeBytes? (front ++ rest) (byteLength front) = some front := by
  have h := takeBytes?_append front rest 0
  rw [Nat.add_zero, takeBytes?_zero, Option.map_some, List.append_nil] at h
  exact h

end Text

theorem pairwise_lt_eraseDups {words : List String} (h : words.Pairwise (· ≤ ·)) :
    words.eraseDups.Pairwise (· < ·) := by
  induction hn : words.length using Nat.strongRecOn generalizing words with
  | ind n ih =>
    cases words with
    | nil => exact List.Pairwise.nil
    | cons first rest =>
      obtain ⟨hfirst, hrest⟩ := List.pairwise_cons.1 h
      have hshorter := List.length_filter_le (fun w => !w == first) rest
      rw [List.length_cons] at hn
      rw [List.eraseDups_cons]
      refine List.pairwise_cons.2 ⟨fun w hw => ?_, ih _ (by omega) (hrest.filter _) rfl⟩
      rw [List.mem_eraseDups, List.mem_filter] at hw
      have hne : first ≠ w := fun heq => by simp [heq] at hw
      exact Std.lt_of_le_of_ne (hfirst w hw.1) hne

namespace Interactive

open Text (byteLength takeBytes?)

/-! ### The word before the cursor -/

/-- `word` stands behind `outer` from the start of a line or from a separator on. -/
structure WordBehind (outer word : List Char) : Prop where
  unbroken : ∀ c ∈ word, separates c = false
  begins : ∀ sep ∈ outer.getLast?, separates sep = true

/-- The last separator, if there is one, is a single byte. -/
def EndsNarrow (outer : List Char) : Prop := ∀ sep ∈ outer.getLast?, sep.utf8Size = 1

instance (outer word : List Char) : Decidable (WordBehind outer word) :=
  decidable_of_iff (word.all (fun c => !separates c) = true ∧ outer.getLast?.all separates = true)
    ⟨fun h => ⟨by simpa using h.1, by simpa [Option.all_eq_true] using h.2⟩,
      fun h => ⟨by simpa using h.unbroken, by simpa [Option.all_eq_true] using h.begins⟩⟩

instance (outer : List Char) : Decidable (EndsNarrow outer) :=
  decidable_of_iff (outer.getLast?.all (·.utf8Size == 1) = true)
    (by simp [EndsNarrow, Option.all_eq_true])

/-- Every text has a word at its end, which may be empty. -/
theorem exists_wordBehind (before : List Char) :
    ∃ outer word, before = outer ++ word ∧ WordBehind outer word := by
  induction before using List.reverseRecOn with
  | nil => exact ⟨[], [], rfl, by simp, by simp⟩
  | append_singleton before c ih =>
    cases hc : separates c with
    | true => exact ⟨before ++ [c], [], by simp, by simp, by simp [hc]⟩
    | false =>
      obtain ⟨outer, word, rfl, h⟩ := ih
      refine ⟨outer, word ++ [c], by simp, fun d hd => ?_, h.begins⟩
      rcases List.mem_append.1 hd with hd | hd
      · exact h.unbroken d hd
      · rw [List.mem_singleton.1 hd, hc]

namespace WordBehind

variable {outer inner word : List Char} {sep : Char}

theorem dropWhile_reverse (h : WordBehind outer word) :
    (outer ++ word).reverse.dropWhile (fun c => !separates c) = outer.reverse := by
  have hword : ∀ c ∈ word.reverse, (!separates c) = true := fun c hc => by
    rw [h.unbroken c (List.mem_reverse.1 hc)]
    rfl
  rw [List.reverse_append, List.dropWhile_append_of_pos hword]
  cases hrev : outer.reverse with
  | nil => rfl
  | cons sep inner =>
    have hlast : outer.getLast? = some sep := by rw [List.getLast?_eq_head?_reverse, hrev]; rfl
    have hsep : separates sep = true := h.begins sep hlast
    exact List.dropWhile_cons_of_neg (by simp [hsep])

theorem unique {outer' word' : List Char} (h : WordBehind outer word) (h' : WordBehind outer' word')
    (hsame : outer ++ word = outer' ++ word') : outer = outer' ∧ word = word' := by
  have hrev : outer.reverse = outer'.reverse := by
    rw [← h.dropWhile_reverse, ← h'.dropWhile_reverse, hsame]
  have houter : outer = outer' := List.reverse_inj.1 hrev
  rw [houter] at hsame
  exact ⟨houter, List.append_cancel_left hsame⟩

theorem wordStart_line (h : WordBehind [] word) : Assistant.wordStart word = 0 := by
  have hdrop := h.dropWhile_reverse
  rw [List.nil_append] at hdrop
  rw [Assistant.wordStart, hdrop]
  rfl

theorem wordStart_separator (h : WordBehind (inner ++ [sep]) word) :
    Assistant.wordStart (inner ++ [sep] ++ word) = byteLength inner + 1 := by
  have hrev : (inner ++ [sep]).reverse = sep :: inner.reverse := by simp
  rw [Assistant.wordStart, h.dropWhile_reverse, hrev]
  show byteLength (sep :: inner.reverse) - sep.utf8Size + 1 = byteLength inner + 1
  rw [Text.byteLength_cons, Nat.add_sub_cancel_left, Text.byteLength_reverse]

theorem wordStart_narrow (h : WordBehind outer word) (hnarrow : EndsNarrow outer) :
    Assistant.wordStart (outer ++ word) = byteLength outer := by
  rcases List.eq_nil_or_concat' outer with rfl | ⟨inner, sep, rfl⟩
  · exact h.wordStart_line
  · have hsize : sep.utf8Size = 1 := hnarrow sep (by simp)
    rw [h.wordStart_separator, Text.byteLength_append, Text.byteLength_cons, hsize]
    rfl

end WordBehind

namespace Assistant

variable {a : Assistant} {line : String} {outer word rest : List Char}

theorem complete?_narrow (hline : line.toList = outer ++ word ++ rest) (h : WordBehind outer word)
    (hnarrow : EndsNarrow outer) :
    a.complete? line (byteLength (outer ++ word)) = some (byteLength outer,
      if word.isEmpty then [] else a.words.filter fun w => word.isPrefixOf w.toList) := by
  have hbefore : takeBytes? line.toList (byteLength (outer ++ word)) = some (outer ++ word) := by
    rw [hline]
    exact Text.takeBytes?_byteLength _ _
  have hbegun : dropBytes? (outer ++ word) (byteLength outer) = some word := by
    rw [dropBytes?, Text.takeBytes?_byteLength, Option.map_some, List.drop_left]
  simp only [complete?, hbefore, Option.bind_eq_bind, Option.bind_some, h.wordStart_narrow hnarrow,
    hbegun]
  cases word with
  | nil => simp
  | cons c word => rfl

theorem complete?_wide (hline : line.toList = outer ++ word ++ rest) (h : WordBehind outer word)
    (hwide : ¬EndsNarrow outer) : a.complete? line (byteLength (outer ++ word)) = none := by
  have hbefore : takeBytes? line.toList (byteLength (outer ++ word)) = some (outer ++ word) := by
    rw [hline]
    exact Text.takeBytes?_byteLength _ _
  rcases List.eq_nil_or_concat' outer with rfl | ⟨inner, sep, rfl⟩
  · exact absurd (fun sep hsep => by cases hsep) hwide
  · have hsize : 1 < sep.utf8Size := by
      have hpos := sep.utf8Size_pos
      have hne : sep.utf8Size ≠ 1 := fun heq => hwide fun d hd => by
        rw [List.getLast?_append, List.getLast?_singleton] at hd
        cases hd
        exact heq
      omega
    have hbegun : dropBytes? (inner ++ [sep] ++ word) (byteLength inner + 1) = none := by
      rw [dropBytes?, List.append_assoc, Text.takeBytes?_append, List.singleton_append,
        Text.takeBytes?_inside Nat.one_pos hsize]
      rfl
    simp only [complete?, hbefore, Option.bind_eq_bind, Option.bind_some, h.wordStart_separator,
      hbegun, Option.bind_none]

/-! ### The known words -/

/-- What a session makes of an assistant, with the words that were made known to it last. -/
inductive Knows : Assistant → List String → Prop
  | fresh : Knows {} []
  | setWords {a : Assistant} {known : List String} (h : Knows a known) (words : List String) :
    Knows (a.setWords words) words
  | remember {a : Assistant} {known : List String} (h : Knows a known) (line : String) :
    Knows (a.remember line) known

theorem words_setWords_ascending (a : Assistant) (words : List String) :
    (a.setWords words).words.Pairwise (· < ·) := by
  refine pairwise_lt_eraseDups ?_
  have htrans : ∀ x y z : String, decide (x ≤ y) = true → decide (y ≤ z) = true →
      decide (x ≤ z) = true := by
    intro x y z hxy hyz
    rw [decide_eq_true_eq] at hxy hyz ⊢
    exact String.le_trans hxy hyz
  have htotal : ∀ x y : String, (decide (x ≤ y) || decide (y ≤ x)) = true := by
    intro x y
    rw [Bool.or_eq_true, decide_eq_true_eq, decide_eq_true_eq]
    exact String.le_total x y
  have hsorted := List.pairwise_mergeSort htrans htotal words
  exact hsorted.imp fun h => of_decide_eq_true h

theorem mem_words_setWords {words : List String} {w : String} :
    w ∈ (a.setWords words).words ↔ w ∈ words := by
  rw [setWords, List.mem_eraseDups, List.mem_mergeSort]

theorem Knows.words {known : List String} (h : a.Knows known) :
    a.words.Pairwise (· < ·) ∧ ∀ w, w ∈ a.words ↔ w ∈ known := by
  induction h with
  | fresh => exact ⟨.nil, fun w => .rfl⟩
  | setWords _ words _ => exact ⟨words_setWords_ascending _ words, fun w => mem_words_setWords⟩
  | remember _ line ih => exact ih

/-- `found` are the words that complete `word`, each once and in ascending order; an empty word is
not completed. -/
structure Completes (known : List String) (word : List Char) (found : List String) : Prop where
  mem_iff : ∀ w, w ∈ found ↔ word ≠ [] ∧ w ∈ known ∧ word <+: w.toList
  ascending : found.Pairwise (· < ·)

theorem Knows.completes {known : List String} (h : a.Knows known) (word : List Char) :
    Completes known word
      (if word.isEmpty then [] else a.words.filter fun w => word.isPrefixOf w.toList) := by
  obtain ⟨hascending, hmem⟩ := h.words
  cases word with
  | nil => exact ⟨by simp, .nil⟩
  | cons c word =>
    refine ⟨fun w => ?_, hascending.filter _⟩
    show w ∈ a.words.filter _ ↔ _
    rw [List.mem_filter, List.isPrefixOf_iff_prefix, hmem]
    exact ⟨fun hw => ⟨by simp, hw⟩, fun hw => hw.2⟩

/-- At every place between two characters of a line there is a word before the cursor.  It is
completed, from where it begins, by the known words that begin like it, unless the separator before
it has several bytes; then there is no answer. -/
theorem completes_word {known : List String} (h : a.Knows known) {before : List Char}
    (hline : line.toList = before ++ rest) :
    ∃ outer word, before = outer ++ word ∧ WordBehind outer word ∧
      (EndsNarrow outer → ∃ found,
        a.complete? line (byteLength before) = some (byteLength outer, found) ∧
          Completes known word found) ∧
      (¬EndsNarrow outer → a.complete? line (byteLength before) = none) := by
  obtain ⟨outer, word, rfl, hword⟩ := exists_wordBehind before
  refine ⟨outer, word, rfl, hword, fun hnarrow => ?_, fun hwide => ?_⟩
  · exact ⟨_, complete?_narrow hline hword hnarrow, h.completes word⟩
  · exact complete?_wide hline hword hwide

def novice : Assistant := setWords {} ["if", "add", "adapt", "add"]

/-- Behind a bracket `ad` is completed; behind an ideographic space, which has three bytes, it is
not. -/
theorem completes_word_novice :
    (∃ found, novice.complete? "[ad b" 3 = some (1, found) ∧
      Completes ["if", "add", "adapt", "add"] ['a', 'd'] found) ∧
    novice.complete? "x\u3000ad" 6 = none := by
  have hknows : novice.Knows ["if", "add", "adapt", "add"] := .setWords .fresh _
  have hbracket : WordBehind ['['] ['a', 'd'] := by decide
  have hspace : WordBehind ['x', '\u3000'] ['a', 'd'] := by decide +kernel
  constructor
  · have hline : "[ad b".toList = ['[', 'a', 'd'] ++ [' ', 'b'] := rfl
    obtain ⟨outer, word, hsame, hword, hfound, -⟩ := completes_word hknows hline
    obtain ⟨rfl, rfl⟩ := hbracket.unique hword hsame
    exact hfound (by decide)
  · have hline : "x\u3000ad".toList = ['x', '\u3000', 'a', 'd'] ++ [] := rfl
    obtain ⟨outer, word, hsame, hword, -, hnone⟩ := completes_word hknows hline
    obtain ⟨rfl, rfl⟩ := hspace.unique hword hsame
    exact hnone (by decide)

end Assistant

end Interactive

end Homoicon
