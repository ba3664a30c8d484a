import Homoicon.Source.Scan

/-!
# Feeds

A feed is the code that is still to be evaluated.  It remembers the unit consumed last, knows the
scope in which its words are looked up, and holds the two marks through which enfix lookahead is
coordinated.
-/

namespace Homoicon

structure Feed where
  units : List Value
  /-- The scope in which words are looked up. -/
  scope : ScopeId
  lookback : Option Value := none
  /-- The next step must not take its value on as a left operand. -/
  noLookahead : Bool := false
  /-- An enfixed action waits for an enclosing call to finish. -/
  deferring : Bool := false

instance : Inhabited Feed := ⟨{ units := [], scope := 0 }⟩

/-- One element of a feed that a host supplies. -/
inductive FeedItem where
  | code (v : Value)
  /-- A finished value; it evaluates to itself whatever its kind. -/
  | spliced (v : Value)
  /-- Source text, in which brackets balance. -/
  | text (s : String)

def FeedItem.units : FeedItem → Except Source.ScanError (List Value)
  | .code v => .ok [v]
  | .spliced v => .ok [v.quotedIfNeeded]
  | .text s => Source.scan s

namespace Feed

/-- The units of a list of items; the first item that does not scan decides the error. -/
def unitsOfItems : List FeedItem → Except Source.ScanError (List Value)
  | [] => .ok []
  | item :: rest => do
    let here ← item.units
    let others ← unitsOfItems rest
    return here ++ others

def peek (f : Feed) : Option Value := f.units.head?

def peekNext (f : Feed) : Option Value := f.units[1]?

/-- The feed behind its current unit, which becomes the lookback. -/
def advance (f : Feed) : Feed :=
  match f.units with
  | [] => f
  | u :: us => { f with units := us, lookback := some u }

def isEnd (f : Feed) : Bool := f.units.isEmpty

def atBarrier (f : Feed) : Bool :=
  match f.units with
  | .comma :: _ => true
  | _ => false

/-- Whether no argument can be taken: at the end or at a barrier. -/
def atArgumentEnd (f : Feed) : Bool := f.isEnd || f.atBarrier

theorem length_units_advance (f : Feed) : f.advance.units.length = f.units.length - 1 := by
  unfold advance
  split <;> simp_all

end Feed

end Homoicon
