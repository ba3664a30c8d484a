import Homoicon.Evaluate.Call
import Homoicon.Evaluate.Run

/-!
# Paths

A path calls an action with refinements, as in `append/dup`, or picks from a block, a text or a
frame, as in `block/2`.  A set-path assigns to an element of the block that a word holds.  Groups in
a path are evaluated where they stand.
-/

namespace Homoicon

inductive PathOutcome where
  | call (p : PendingCall)
  | value (v : Value)

def badPath (items : List Value) : Fault := .of (.badPath (Value.path items).mold)

/-- Position of the element that a word selects: the one after the first word or set-word of that
name. -/
def selectIndex? (items : List Value) (name : String) : Option Nat :=
  (items.findIdx? fun
    | .word w | .setWord w => w == name
    | _ => false).map (· + 1)

/-- The position, counted from zero, that a one-based index stands for. -/
def position? (n : Int64) : Option Nat :=
  if 1 ≤ n.toInt then some (n.toInt.toNat - 1) else none

/-- Picks from a block, group or text by a key: null where nothing is left to pick, nothing at all
where the key does not fit. -/
def pickItem? : Value → Value → Option Value
  | .block items, .integer n | .group items, .integer n =>
    (position? n).map fun i => (items[i]?).getD .null
  | .block items, .word name => (selectIndex? items name).map fun i => (items[i]?).getD .null
  | .text s, .integer n =>
    (position? n).map fun i => ((s.toList[i]?).map fun c => .text (String.singleton c)).getD .null
  | _, _ => none

/-- Picks from a container by a key; a frame holds its arguments by their names. -/
def pick : Value → Value → Eval (Option Value)
  | .frame f, .word name => Eval.command (.frameArgument f.id name)
  | container, key => return pickItem? container key

/-- Position of the existing element that a key addresses for assignment. -/
def assignIndex? (items : List Value) (key : Value) : Option Nat :=
  let index? :=
    match key with
    | .integer n => position? n
    | .word name => selectIndex? items name
    | _ => none
  index?.filter fun i => i < items.length

namespace Evaluator

/-- Evaluates a group of a path; a group that produces nothing counts as null. -/
def evalPathGroup (ev : Evaluator) (feed : FeedId) (items : List Value) : Eval Value := do
  let scope ← Eval.scopeOf feed
  let result ← ev.runUnits items scope
  return result.getD .null

def badSegment (v : Value) : Fault := .of (.badRefinement (v.mold ++ " cannot name a refinement"))

/-- The refinement that a segment names; a group may come to blank or null and name none. -/
def segmentRequest (ev : Evaluator) (feed : FeedId) : Value → Eval (Option String)
  | .word name => return some name
  | .group items => do
    match ← ev.evalPathGroup feed items with
    | .word name | .refinement name => return some name
    | .blank | .null => return none
    | other => Eval.fail (badSegment other)
  | other => Eval.fail (badSegment other)

/-- The refinements that the segments of a call name, none of them twice. -/
def requestsOf (ev : Evaluator) (feed : FeedId) (found : List String) :
    List Value → Eval (List String)
  | [] => return found
  | segment :: rest => do
    match ← ev.segmentRequest feed segment with
    | none => ev.requestsOf feed found rest
    | some name =>
      if found.contains name then
        Eval.failWith (.badRefinement ("/" ++ name ++ " requested twice"))
      else ev.requestsOf feed (found ++ [name]) rest

def segmentKey (ev : Evaluator) (feed : FeedId) : Value → Eval Value
  | .group items => ev.evalPathGroup feed items
  | other => return other

def pickAlong (ev : Evaluator) (feed : FeedId) (whole : List Value) (current : Value) :
    List Value → Eval Value
  | [] => return current
  | segment :: rest => do
    let key ← ev.segmentKey feed segment
    match ← pick current key with
    | some v => ev.pickAlong feed whole v rest
    | none => Eval.fail (badPath whole)

/-- The value at the head of a path and the label of a call of it. -/
def pathHead (ev : Evaluator) (feed : FeedId) (whole : List Value) : Value → Eval (Value × String)
  | .word name => do
    let v ← Eval.resolve feed name
    return (v, name)
  | .group items => do
    let v ← ev.evalPathGroup feed items
    return (v, "anonymous")
  | other => if other.isInert then return (other, "anonymous") else Eval.fail (badPath whole)

/-- Evaluates a path.  An action at the head is called if `invoke` is set, with the other segments
as refinements; otherwise it is the value, and there may be no other segments. -/
def evalPath (ev : Evaluator) (feed : FeedId) (items : List Value) (invoke : Bool) :
    Eval PathOutcome :=
  match items with
  | [] => Eval.fail (badPath items)
  | head :: segments => do
    let (v, label) ← ev.pathHead feed items head
    match v with
    | .action _ action =>
      if invoke then
        let requests ← ev.requestsOf feed [] segments
        return .call { action, label, requests }
      else if segments.isEmpty then return .value v
      else Eval.fail (badPath items)
    | _ =>
      let result ← ev.pickAlong feed items v segments
      return .value result

/-- Evaluates a path that must not call: a get-path, a silenced path. -/
def evalPathValue (ev : Evaluator) (feed : FeedId) (items : List Value) : Eval Value := do
  match ← ev.evalPath feed items false with
  | .value v => return v
  | .call _ => Eval.failWith (.badPath (Value.getPath items).mold)

/-- Assigns to an element of the block that the head of a path holds. -/
def assignPath (ev : Evaluator) (feed : FeedId) (items : List Value) (v : Value) : Eval Unit := do
  match items with
  | [.word head, segment] =>
    let key ← ev.segmentKey feed segment
    match ← Eval.resolve feed head with
    | .block block =>
      match assignIndex? block key with
      | some index =>
        let scope ← Eval.scopeOf feed
        Eval.assign scope head (.block (block.set index v))
      | none => Eval.fail (badPath items)
    | _ => Eval.fail (badPath items)
  | _ => Eval.fail (badPath items)

end Evaluator

end Homoicon
