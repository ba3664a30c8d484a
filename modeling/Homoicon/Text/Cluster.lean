import Homoicon.Text.BreakClass

/-!
# Clusters: characters as a reader counts them

A text falls into extended grapheme clusters: a letter with its marks, a syllable, a flag, a family
of joined pictographs.  Whether a boundary lies before a character depends on its class and on the
characters before it, of which `Tail` remembers all that counts.  The clusters joined together are
the text (`flatten_clusters`), and none is empty (`ne_nil_of_mem_clusters`).
-/

namespace Homoicon.Text

/-- What the characters so far say about a boundary behind them. -/
structure Tail where
  last : BreakClass := .control
  /-- Whether they end in an odd number of flag halves. -/
  oddRegional : Bool := false
  /-- Whether they end in a pictograph, marks behind it not counted. -/
  pictograph : Bool := false
  /-- Whether they end in a pictograph with a joiner behind it. -/
  joined : Bool := false
  /-- Whether they end in a consonant, marks behind it not counted, and if so whether a virama is
  among the marks. -/
  conjunct : Option Bool := none
  deriving DecidableEq, Inhabited

namespace Tail

def nextConjunct (t : Tail) (c : Char) (k : BreakClass) : Option Bool :=
  if isConsonant c then some false
  else if isVirama c then t.conjunct.map fun _ => true
  else if k = .joiner || (k = .extend && c.toNat ≠ 0x200c) then t.conjunct
  else none

def push (t : Tail) (c : Char) : Tail :=
  let k := breakClass c
  { last := k
    oddRegional := k = .regional && !t.oddRegional
    pictograph := k = .pictograph || (k = .extend && t.pictograph)
    joined := k = .joiner && t.pictograph
    conjunct := if c.toNat < 128 then none else t.nextConjunct c k }

def joins (t : Tail) (c : Char) : Bool :=
  match t.last, breakClass c with
  | .carriageReturn, .lineFeed => true
  | .carriageReturn, _ | .lineFeed, _ | .control, _ => false
  | _, .carriageReturn | _, .lineFeed | _, .control => false
  | .leading, .leading | .leading, .vowel => true
  | .leading, .openSyllable | .leading, .closedSyllable => true
  | .openSyllable, .vowel | .openSyllable, .trailing => true
  | .vowel, .vowel | .vowel, .trailing => true
  | .closedSyllable, .trailing | .trailing, .trailing => true
  | _, .extend | _, .joiner | _, .spacing => true
  | .prepend, _ => true
  | _, .pictograph => t.joined
  | .regional, .regional => t.oddRegional
  | _, _ => t.conjunct = some true && isConsonant c

end Tail

/-- The clusters of a text behind an open one, which is given with its last character first. -/
def clustersFrom (t : Tail) (cluster : List Char) : List Char → List (List Char)
  | [] => [cluster.reverse]
  | c :: cs =>
    if t.joins c then clustersFrom (t.push c) (c :: cluster) cs
    else cluster.reverse :: clustersFrom (t.push c) [c] cs

def clusters : List Char → List (List Char)
  | [] => []
  | c :: cs => clustersFrom (Tail.push {} c) [c] cs

theorem flatten_clustersFrom (t : Tail) (cluster cs : List Char) :
    (clustersFrom t cluster cs).flatten = cluster.reverse ++ cs := by
  induction cs generalizing t cluster with
  | nil => simp [clustersFrom]
  | cons c cs ih =>
    rw [clustersFrom]
    split
    · rw [ih]
      simp
    · rw [List.flatten_cons, ih]
      simp

theorem flatten_clusters (cs : List Char) : (clusters cs).flatten = cs := by
  cases cs with
  | nil => rfl
  | cons c cs => simp [clusters, flatten_clustersFrom]

theorem ne_nil_of_mem_clustersFrom {t : Tail} {cluster cs g : List Char} (h : cluster ≠ [])
    (hg : g ∈ clustersFrom t cluster cs) : g ≠ [] := by
  induction cs generalizing t cluster with
  | nil =>
    rw [clustersFrom, List.mem_singleton] at hg
    simpa [hg] using h
  | cons c cs ih =>
    rw [clustersFrom] at hg
    split at hg
    · exact ih (List.cons_ne_nil c cluster) hg
    · rcases List.mem_cons.1 hg with rfl | hg
      · simpa using h
      · exact ih (List.cons_ne_nil c []) hg

theorem ne_nil_of_mem_clusters {cs g : List Char} (hg : g ∈ clusters cs) : g ≠ [] := by
  cases cs with
  | nil => simp [clusters] at hg
  | cons c cs => exact ne_nil_of_mem_clustersFrom (List.cons_ne_nil c []) hg

end Homoicon.Text
