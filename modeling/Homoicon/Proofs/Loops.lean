import Homoicon.Evaluate.Operation.Control
import Homoicon.Proofs.Results

/-!
# Loops as rounds

Both loops repeat a round: a test and, if it holds, a body.  They differ in the test, which always
holds in a loop with a count, and in what they come to when they have had all the rounds that they
may take.
-/

namespace Homoicon

namespace Loop

def round (test : Eval Bool) (body : Eval LoopFlow) : Eval (Option LoopFlow) := do
  if ← test then
    let flow ← body
    return some flow
  else return none

/-- Rounds until one has no body or stops; `spent` is what the loop comes to if it has had all the
rounds that it may take. -/
def run (test : Eval Bool) (body : Eval LoopFlow) (spent : Option Value → Eval Value)
    (last : Option Value) : Nat → Eval Value
  | 0 => spent last
  | n + 1 => do
    match ← round test body with
    | some (.next v) => run test body spent (v.or last) n
    | some .stop => return .null
    | none => return last.getD .null

/-- The machines at which the rounds of a loop begin. -/
def rounds (test : Eval Bool) (body : Eval LoopFlow) : Nat → Machine → List Machine
  | 0, _ => []
  | n + 1, m =>
    m :: match round test body m with
      | (.done (some (.next _)), m') => rounds test body n m'
      | _ => []

variable {test : Eval Bool} {body : Eval LoopFlow} {spent : Option Value → Eval Value}
  {last : Option Value} {n : Nat} {m : Machine}

theorem run_succ (test : Eval Bool) (body : Eval LoopFlow) (spent : Option Value → Eval Value)
    (last : Option Value) (n : Nat) (m : Machine) :
    (∃ v, (round test body m).1 = .done (some (.next v)) ∧
      run test body spent last (n + 1) m = run test body spent (v.or last) n (round test body m).2 ∧
      rounds test body (n + 1) m = m :: rounds test body n (round test body m).2) ∨
    (run test body spent last (n + 1) m).2 = (round test body m).2 ∧
      rounds test body (n + 1) m = [m] := by
  rw [run, rounds, Eval.run_bind]
  rcases (round test body).run m with ⟨(_ | (v | _)) | s | e | _, m'⟩
  · exact .inr ⟨rfl, rfl⟩
  · exact .inl ⟨v, rfl, rfl, rfl⟩
  · exact .inr ⟨rfl, rfl⟩
  · exact .inr ⟨rfl, rfl⟩
  · exact .inr ⟨rfl, rfl⟩
  · exact .inr ⟨rfl, rfl⟩

/-! ### Signals out of rounds -/

variable {R : Signal → Prop} {s : Signal} {m' : Machine}

end Loop

/-! ### The loops of the standard library -/

namespace Evaluator

variable {ev : Evaluator} {c : Call} {condition body : List Value}

/-- Whether a condition comes out true. -/
def holds (ev : Evaluator) (c : Call) (condition : List Value) : Eval Bool := do
  let test ← ev.runBlock c condition
  return test.any Value.isTruthy

theorem loopTimes_eq (last : Option Value) (n : Nat) : ev.loopTimes c body last n =
    Loop.run (pure true) (ev.runLoopBody c body) (fun last => return last.getD .null) last n := by
  induction n generalizing last with
  | zero => rfl
  | succ n ih =>
    rw [loopTimes, Loop.run]
    show _ = (ev.runLoopBody c body >>= fun flow => pure (some flow)) >>= _
    rw [Eval.bind_assoc]
    refine congrArg (ev.runLoopBody c body >>= ·) (funext fun flow => ?_)
    cases flow with
    | next v => exact ih (v.or last)
    | stop => rfl

theorem loopWhile_eq (last : Option Value) (n : Nat) : ev.loopWhile c condition body last n =
    Loop.run (ev.holds c condition) (ev.runLoopBody c body) (fun _ => Eval.exhaust) last n := by
  induction n generalizing last with
  | zero => rfl
  | succ n ih =>
    rw [loopWhile, Loop.run, Loop.round, holds, Eval.bind_assoc, Eval.bind_assoc]
    refine congrArg (ev.runBlock c condition >>= ·) (funext fun test => ?_)
    cases htest : test.any Value.isTruthy with
    | false => rfl
    | true =>
      show _ = (ev.runLoopBody c body >>= fun flow => pure (some flow)) >>= _
      rw [Eval.bind_assoc]
      refine congrArg (ev.runLoopBody c body >>= ·) (funext fun flow => ?_)
      cases flow with
      | next v => exact ih (v.or last)
      | stop => rfl

end Evaluator

end Homoicon
