import Homoicon.Evaluate.Escape
import Homoicon.Spec

/-!
# Argument fulfilment

The slots of a call are filled in the order of its parameters.  Refinements named at the callsite
are only noted on the way; their arguments are taken afterwards, again in the order of the
parameters, so that the order in which refinements are written changes nothing.
-/

namespace Homoicon.Evaluator

def leftVarargs (left : Value) (p : Param) (label : String) : Eval Value := do
  let scope ← Eval.newScope none
  let feed ← Eval.newFeed [left.quotedIfNeeded] scope
  let id ← Eval.freshIdentity
  return .varargs id { feed, pull := .evaluate, param := p, label, frame := none }

/-- What the left operand of an enfix call is to the parameter it goes to. -/
def leftArgument (left : Value) (p : Param) (label : String) : Eval Value :=
  match p.role with
  | .variadic _ => leftVarargs left p label
  | _ => return left

def fillLeft (c : CallState) (left : Value) : Eval CallState := do
  match c.action.firstArgument? with
  | none => Eval.failWith (.native (c.label ++ " has no parameter for its left operand"))
  | some index =>
    match c.action.params[index]? with
    | none => return c
    | some p =>
      let v ← leftArgument left p c.label
      Eval.ofExcept (checkUnless p.types.endable c.label p v)
      return c.fill index v

/-- Marks the first unmatched request of a given name, if there is one. -/
def matchRequest (name : String) : List Request → List Request
  | [] => []
  | r :: rest =>
    if !r.matched && r.name == name then { r with matched := true } :: rest
    else r :: matchRequest name rest

/-- Whether a refinement is named at the callsite, by a request that none before it matched. -/
def isRequested (c : CallState) (p : Param) : Bool :=
  c.requests.any fun r => !r.matched && r.name == p.name

/-- Whether the refinement at `index` is in use: it is requested, preset or switched on. -/
def isInUse (c : CallState) (p : Param) (index : Nat) : Bool :=
  isRequested c p ||
    match c.action.preset? index with
    | some v => v.isTruthy
    | none => c.modalOn.contains index

/-- Decides whether the refinement at `index` is in use and fills its slot, and the slots of its
arguments if it is not. -/
def noteRefinement (c : CallState) (p : Param) (index : Nat) : Except Fault CallState :=
  if isRequested c p && (c.action.preset? index).any fun v => !v.isTruthy then
    .error (.of (.badRefinement ("/" ++ p.name ++ " is specialized out of " ++ c.label)))
  else
    let arguments := c.action.refinementArguments index
    let matched := { c with requests := matchRequest p.name c.requests }
    if isInUse c p index then
      let c := matched.fill index (.refinement p.name)
      .ok (if arguments.isEmpty then c else { c with pickups := c.pickups ++ [index] })
    else .ok (arguments.foldl (fun c i => c.fill i .null) (matched.fill index .null))

/-- Every refinement named at the callsite must have been found. -/
def checkRequests (c : CallState) : Except Fault Unit :=
  match c.requests.find? fun r => !r.matched with
  | some r => .error (.of (.badRefinement (c.label ++ " has no refinement /" ++ r.name)))
  | none => .ok ()

/-- A refinement whose arguments all came to null was not really requested; arguments may not be
null in part. -/
def revokeIfNull (c : CallState) (refinement : Nat) (arguments : List Nat) : Eval CallState := do
  match arguments with
  | [] => return c
  | first :: _ =>
    let revoked := (c.slot first).isNull
    let name := (c.action.params[refinement]?).map (·.name) |>.getD ""
    if arguments.any fun i => (c.slot i).isNull != revoked then
      Eval.failWith (.badRevoke c.label name)
    else if revoked then
      Eval.note (.revoked c.label name)
      return c.refill refinement .null
    else return c

def returnAction (id : FrameId) : Eval Value := do
  let signature ← Eval.freshIdentity
  let identity ← Eval.freshIdentity
  let value : Param :=
    { name := "value", role := .normal, types := { TypeSet.anything with endable := true } }
  return .action identity
    { label := some "return", params := [value], signature, dispatcher := .returnTo id
      exemplar := none, enfixed := false, deferral := .none, description := none }

/-- Evaluates one expression as an argument.  The right operand of an enfix call takes no further
enfix action on. -/
def gatherEvaluated (ev : Evaluator) (feed : FeedId) (c : CallState) (p : Param) :
    Eval (Option Value) := do
  Eval.onlyIf c.action.enfixed (Eval.setNoLookahead feed)
  match ← ev.evalExpression feed true with
  | some v => return some v
  | none => if p.types.endable then return none else Eval.fail (noArgument c.label p)

/-- The fault of a silenced argument without a refinement to switch on. -/
def modalFault (c : CallState) (p : Param) : Fault :=
  .of (.modalWithoutRefinement (if c.label.isEmpty then none else some c.label) p.name)

/-- Takes an argument for the parameter at `index` from the callsite, as its role says.  No value
stands for an absent argument, where one is allowed. -/
def gather (ev : Evaluator) (feed : FeedId) (c : CallState) (p : Param) (index : Nat) :
    Eval (Option Value × CallState) := do
  if ← Eval.atArgumentEnd feed then
    if p.types.endable || (p.role == .hardQuote && p.types.skippable) then return (none, c)
    else Eval.fail (noArgument c.label p)
  else if ← Eval.deferring feed then
    let pending ← Eval.peek feed
    Eval.fail ((Fault.of (.ambiguousInfix (pending.map Value.mold |>.getD ""))).inCall c.label)
  else
    match ← Eval.peek feed with
    | none => Eval.fail (noArgument c.label p)
    | some unit =>
      match p.role, unit with
      | .hardQuote, unit =>
        if p.types.skippable && !p.types.accepts unit then return (none, c)
        else
          Eval.advance feed
          return (some unit, c)
      | .softQuote, unit =>
        Eval.advance feed
        let v ← ev.softEscape feed unit
        return (some (v.getD .null), c)
      | .modal, .sym payload =>
        if !Spec.hasSwitchAfter c.action.params index then Eval.fail (modalFault c p)
        else
          Eval.advance feed
          let v ← ev.evalSilenced feed payload
          return (some (v.getD .null), { c with modalOn := c.modalOn ++ [index + 1] })
      | _, _ =>
        let v ← ev.gatherEvaluated feed c p
        return (v, c)

def fillParam (ev : Evaluator) (frame : Frame) (c : CallState) (p : Param) (index : Nat) :
    Eval CallState := do
  match c.action.preset? index with
  | some preset =>
    Eval.ofExcept (checkUnless p.owner.isSome c.label p preset)
    return c.fill index preset
  | none =>
    match p.role with
    | .localWord => return c.fill index .void
    | .returns => do
      let v ← returnAction frame.id
      return c.fill index v
    | .variadic pull => do
      let reified ← reifyCall frame.id c
      let id ← Eval.freshIdentity
      return c.fill index
        (.varargs id { feed := frame.feed, pull, param := p, label := c.label
                       frame := some reified })
    | .refinement =>
      Eval.failWith (.native ("refinement /" ++ p.name ++ " reached argument gathering"))
    | _ => do
      let (taken, c) ← ev.gather frame.feed c p index
      match taken with
      | none => return c.fill index .null
      | some v =>
        Eval.ofExcept (checkUnless p.owner.isSome c.label p v)
        return c.fill index v

/-- Fills the slots of the parameters that belong to no refinement and notes the refinements. -/
def mainPass (ev : Evaluator) (frame : Frame) : List (Param × Nat) → CallState → Eval CallState
  | [], c => return c
  | (p, index) :: rest, c => do
    if c.isFilled index || p.owner.isSome then ev.mainPass frame rest c
    else if p.role == .refinement then
      let c ← Eval.ofExcept (noteRefinement c p index)
      ev.mainPass frame rest c
    else
      let c ← ev.fillParam frame c p index
      ev.mainPass frame rest c

/-- Fills the slots at the given positions that are still empty. -/
def fillAll (ev : Evaluator) (frame : Frame) : List Nat → CallState → Eval CallState
  | [], c => return c
  | index :: rest, c => do
    if c.isFilled index then ev.fillAll frame rest c
    else
      match c.action.params[index]? with
      | none => ev.fillAll frame rest c
      | some p =>
        let c ← ev.fillParam frame c p index
        ev.fillAll frame rest c

def pickupPass (ev : Evaluator) (frame : Frame) : List Nat → CallState → Eval CallState
  | [], c => return c
  | refinement :: rest, c => do
    let arguments := c.action.refinementArguments refinement
    let c ← ev.fillAll frame arguments c
    let c ← revokeIfNull c refinement arguments
    ev.pickupPass frame rest c

def fillLeft? (c : CallState) : Option Value → Eval CallState
  | some left => fillLeft c left
  | none => return c

def fulfil (ev : Evaluator) (frame : Frame) (left : Option Value) (c : CallState) :
    Eval CallState := do
  let c ← fillLeft? c left
  let c ← ev.mainPass frame c.action.params.zipIdx c
  Eval.ofExcept (checkRequests c)
  ev.pickupPass frame c.pickups c

end Homoicon.Evaluator
