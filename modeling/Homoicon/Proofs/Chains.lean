import Homoicon.Proofs.Results
import Homoicon.Proofs.Stage.Calls
import Homoicon.Registry.Standard

/-!
# Chains of infix calls

A value followed by enfixed calls is evaluated from left to right: the right operand of a call is
kept from looking ahead, so the next call finds the result of the one before it.  Comments before an
operand produce nothing, and the request not to look ahead outlasts them.  All calls of a chain are
made by one step, one after the other, so its length does not show in the number of live frames.
-/

namespace Homoicon

/-- An action that takes a text as it stands and produces nothing. -/
structure Action.Discards (a : Action) : Prop where
  exemplar : a.exemplar = none
  enfixed : a.enfixed = false
  params : ∃ p, a.params = [p] ∧ p.role = .hardQuote ∧ p.owner = none ∧
    ∀ s, p.types.accepts (.text s) = true
  dispatcher : ∃ n, a.dispatcher = .native n ∧ n.operation = .access .comment

/-- Texts that are commented out. -/
def commented (texts : List String) : List Value :=
  texts.flatMap fun text => [.word "comment", .text text]

namespace Stage

structure Comments (S : Stage) : Prop where
  known : S.known "comment"
  names : ∃ id a, S.names "comment" = some (.action id a) ∧ a.Discards
  uncounted : "comment" ≠ S.counted

variable {S : Stage} {depth patience nesting need : Nat} {f : Feed} {frame : Frame}

/-! ### Comments -/

theorem Gives.gatherQuoted {c : CallState} {p : Param} {i : Nat} {unit : Value} {rest : List Value}
    {ev : Evaluator} (hrole : p.role = .hardQuote) (haccepts : p.types.accepts unit = true)
    (hunits : f.units = unit :: rest) (hmore : f.atArgumentEnd = false)
    (hdeferring : f.deferring = false) :
    S.Gives depth f (ev.gather S.feed c p i) (some unit, c) f.advance := by
  apply Gives.atArgumentEnd.andThen
  rw [hmore]
  apply Gives.deferring.andThen
  rw [hdeferring]
  apply Gives.peek.andThen
  simp only [Feed.peek, hunits, List.head?_cons, hrole, haccepts, Bool.not_true, Bool.and_false,
    Bool.false_eq_true, if_false]
  exact Gives.advance.andThen (Gives.pure _)

theorem Gives.fillQuoted {c : CallState} {p : Param} {i : Nat} {unit : Value} {rest : List Value}
    {ev : Evaluator} (hframe : frame.feed = S.feed) (hpreset : c.action.preset? i = none)
    (hrole : p.role = .hardQuote) (haccepts : p.types.accepts unit = true)
    (hunits : f.units = unit :: rest) (hmore : f.atArgumentEnd = false)
    (hdeferring : f.deferring = false) :
    S.Gives depth f (ev.fillParam frame c p i) (c.fill i unit) f.advance := by
  have hchecked : checkUnless p.owner.isSome c.label p unit = .ok () := by
    simp [checkUnless, checkType, haccepts]
  unfold Evaluator.fillParam
  simp only [hpreset, hrole, hframe]
  apply (Gives.gatherQuoted hrole haccepts hunits hmore hdeferring).andThen
  simp only [hchecked]
  exact Gives.pure _

theorem Gives.discard {a : Action} {text : String} {rest : List Value} {ev : Evaluator}
    (ha : a.Discards) (hlabel : "comment" ≠ S.counted) (hroom : depth < S.maxDepth)
    (hlimit : depth + 1 ≤ S.limit) (hunits : f.units = .text text :: rest)
    (hdeferring : f.deferring = false) :
    S.Gives depth f (ev.invoke S.feed { action := a, label := "comment" }) none f.advance := by
  obtain ⟨p, hparams, hrole, howner, haccepts⟩ := ha.params
  obtain ⟨n, hdispatcher, hoperation⟩ := ha.dispatcher
  have hmore : f.atArgumentEnd = false := by
    simp [Feed.atArgumentEnd, Feed.isEnd, Feed.atBarrier, hunits]
  apply Runs.invoke hroom hlimit
    (Q := fun o g n => ∃ c, o = .done c ∧ c.action = a ∧ g = f.advance ∧ n = 0)
    (R := fun o g n => o = .done none ∧ g = f.advance ∧ n = 0)
  · intro id
    let c := CallState.start { action := a, label := "comment" }
    have hpreset : a.preset? 0 = none := by
      rw [Action.preset?, ha.exemplar]
      rfl
    have hfill : S.Gives (depth + 1) f (ev.fillParam { id, feed := S.feed } c p 0)
        (c.fill 0 (.text text)) f.advance :=
      Gives.fillQuoted rfl hpreset hrole (haccepts text) hunits hmore hdeferring
    have hslots : S.Gives (depth + 1) f (ev.mainPass { id, feed := S.feed } a.params.zipIdx c)
        (c.fill 0 (.text text)) f.advance := by
      have hunfilled : c.isFilled 0 = false := rfl
      simp only [hparams, List.zipIdx_cons, List.zipIdx_nil, Evaluator.mainPass, howner, hrole,
        hunfilled, Option.isSome_none, Bool.or_self, Bool.false_eq_true, if_false]
      exact hfill.andThen (Gives.pure _)
    apply Gives.andThen (Gives.pure c)
    exact hslots.andThen (Runs.pure ⟨_, rfl, rfl, rfl, rfl⟩)
  · exact ⟨by simp, by simp, by simp⟩
  · rintro id c g n ⟨_, hc, haction, rfl, rfl⟩
    cases hc
    have hfuel : a.adaptations + 1 + ev.patience = a.adaptations + ev.patience + 1 := by omega
    simp only [hfuel, Evaluator.runFilled, Evaluator.runDispatcher, haction, hdispatcher, hoperation,
      Eval.bind_assoc]
    apply (Gives.mark _).andThen
    exact Runs.pure ⟨rfl, rfl, rfl⟩
  · rintro o g n ⟨rfl, rfl, rfl⟩
    exact ⟨none, rfl, rfl, rfl, by simp [hlabel]⟩

theorem Gives.comment {text : String} {rest : List Value} {ev : Evaluator} (hS : S.Comments)
    (hframe : frame.feed = S.feed) (hroom : depth < S.maxDepth) (hlimit : depth + 1 ≤ S.limit)
    (hunits : f.units = .word "comment" :: .text text :: rest) (hdeferring : f.deferring = false)
    (hending : S.Ending rest.head?) :
    S.Gives depth f (ev.evalStep frame)
      { frame := { frame with out := frame.out.markStale, noLookahead := f.noLookahead } }
      { f with units := rest, lookback := some (.text text), noLookahead := false } := by
  obtain ⟨id, a, hname, ha⟩ := hS.names
  have hclaim : S.Unclaiming f.peekNext := by
    rw [Feed.peekNext_cons hunits]
    refine ⟨trivial, ?_⟩
    intro name b hb
    cases hb
  apply Runs.evalStep hframe hunits (by simp) hclaim
  have hunits' : { f with noLookahead := false }.units = .word "comment" :: .text text :: rest :=
    hunits
  refine Gives.drive (by simp) (Gives.dispatchWord ?_ hS.known hname ha.enfixed) ?_
  · exact hframe
  have hcalled : S.Gives depth { f with noLookahead := false }.advance
      (ev.invoke S.feed { action := a, label := "comment" }) none
      { f with units := rest, lookback := some (.text text), noLookahead := false } := by
    rw [Feed.advance_cons hunits']
    refine Gives.discard ha hS.uncounted hroom hlimit rfl ?_
    exact hdeferring
  refine Runs.processAction ?_ hcalled ?_ ?_ ?_ ?_ ?_
  · exact hframe
  · rintro v g n ⟨_, hv, rfl, -⟩
    cases hv
  · rintro g n ⟨_, -, -, rfl, rfl⟩
    simp only [Nat.zero_add]
    exact Gives.drive (by simp) (Gives.closes hframe hending) Gives.finish
  · rintro s g n ⟨_, hs, -⟩
    cases hs
  · rintro e g n ⟨_, he, -⟩
    cases he
  · rintro g n ⟨_, he, -⟩
    cases he

theorem commented_ending (hS : S.Comments) (texts : List String) {unit v : Value}
    (hunit : Literal unit v) (rest : List Value) :
    S.Ending (commented texts ++ unit :: rest).head? := by
  cases texts with
  | nil => exact hunit.ending
  | cons text texts =>
    obtain ⟨id, b, hname, hb⟩ := hS.names
    refine ⟨hS.known, ?_⟩
    intro name a ha
    have ha' : S.action? (some (.word "comment")) = some (name, a) := ha
    simp only [action?, hname] at ha'
    cases ha'
    exact hb.enfixed

theorem commented_more (texts : List String) {unit v : Value} (hunit : Literal unit v)
    {rest : List Value} (h : f.units = commented texts ++ unit :: rest) :
    f.atArgumentEnd = false := by
  cases texts with
  | nil => exact Feed.atArgumentEnd_cons h hunit.ne_comma
  | cons text texts => exact Feed.atArgumentEnd_cons h (by simp)

/-- The request not to look ahead is made anew behind each comment and holds for the operand. -/
theorem Finds.pastComments {texts : List String} {unit v : Value} {rest : List Value} {fuel : Nat}
    (hS : S.Comments) (hunit : Literal unit v) (hframe : frame.feed = S.feed)
    (hroom : depth < S.maxDepth) (hlimit : depth + 1 ≤ S.limit) (hfuel : texts.length < fuel)
    (hunits : f.units = commented texts ++ unit :: rest) (hdeferring : f.deferring = false)
    (hclaim : S.Unclaiming rest.head?) :
    S.Finds depth f (Evaluator.stepToVisible ⟨stepWithin patience (nesting + 1), patience⟩ true fuel
      frame) (S.Yields v) { f with units := rest, lookback := some unit, noLookahead := false } := by
  induction texts generalizing f frame fuel with
  | nil =>
    obtain ⟨fuel, rfl⟩ : ∃ k, fuel = k + 1 := Nat.exists_eq_succ_of_ne_zero (by omega)
    apply Finds.stepToVisible hframe
    exact Finds.literalAlone (f := f.kept true) hframe hunit hunits rfl hclaim
  | cons text texts ih =>
    obtain ⟨fuel, rfl⟩ : ∃ k, fuel = k + 1 := Nat.exists_eq_succ_of_ne_zero (by omega)
    have hunits' : (f.kept true).units =
        .word "comment" :: .text text :: (commented texts ++ unit :: rest) := hunits
    have hstep : S.Gives depth (f.kept true) (stepWithin patience (nesting + 1) frame)
        { frame := { frame with out := frame.out.markStale, noLookahead := true } }
        { f with units := commented texts ++ unit :: rest, lookback := some (.text text),
                 noLookahead := false } :=
      Gives.comment hS hframe hroom hlimit hunits' hdeferring (commented_ending hS texts hunit rest)
    refine Gives.stepInvisible hframe hstep hframe rfl (commented_more texts hunit rfl) ?_
    have hfuel' : texts.length < fuel := by
      simp only [List.length_cons] at hfuel
      omega
    refine ih ?_ hfuel' rfl ?_
    · exact hframe
    · exact hdeferring

theorem Gives.operand {texts : List String} {unit v : Value} {rest : List Value} (hS : S.Comments)
    (hunit : Literal unit v) (hroom : depth + 2 ≤ S.maxDepth) (hlimit : depth + 2 ≤ S.limit)
    (hunits : f.units = commented texts ++ unit :: rest) (hlook : f.noLookahead = true)
    (hdeferring : f.deferring = false)
    (hclaim : S.Unclaiming rest.head?) :
    S.Gives depth f (Evaluator.evalExpression ⟨stepWithin patience (nesting + 1), patience⟩ S.feed
      true) (some v) { f with units := rest, lookback := some unit, noLookahead := false } := by
  apply Gives.evalExpression (by omega) (by omega)
  intro id
  rw [hlook]
  refine Finds.pastComments hS hunit rfl (by omega) (by omega) ?_ hunits hdeferring hclaim
  rw [hunits]
  have hlength : texts.length ≤ (commented texts).length := by
    simp only [commented, List.length_flatMap, List.length_cons, List.length_nil, List.map_const',
      List.sum_replicate_nat]
    omega
  simp only [List.length_append, List.length_cons]
  omega

end Stage

/-! ### Links -/

/-- A word for an enfixed action that computes a value, texts that are commented out, and the right
operand. -/
structure Link where
  operator : Infix
  apply : Value → Value → Except Fault Value
  comments : List String
  operand : Value
  value : Value

namespace Link

structure On (l : Link) (S : Stage) (patience need : Nat) : Prop where
  operator : l.operator.On S patience need
  deferral : l.operator.action.deferral = .none
  computes : ∀ x y o n, l.operator.answers x y o n → o = .ofResult (l.apply x y)
  literal : Stage.Literal l.operand l.value

def units (l : Link) : List Value :=
  .word l.operator.name :: (commented l.comments ++ [l.operand])

/-- What a call makes of its left operand.  A fault tells where it happened. -/
def result (l : Link) (x : Value) : Except Fault Value :=
  (l.apply x l.value).mapError fun e => (e.inCall l.operator.name).nearUnit l.operand.mold

end Link

def foldChain (x : Value) (links : List Link) : Except Fault Value :=
  links.foldlM (fun x l => l.result x) x

def chainUnits (links : List Link) : List Value := links.flatMap Link.units

section

variable {l : Link} {links : List Link} {x : Value}

theorem Link.On.apply_of_done {S : Stage} {patience need n : Nat} {y w : Value}
    (h : l.On S patience need) (hw : l.operator.answers x y (.done (some w)) n) :
    l.apply x y = .ok w := by
  have hcomputes := h.computes x y _ n hw
  cases happly : l.apply x y <;> rw [happly] at hcomputes <;> cases hcomputes
  rfl

theorem foldChain_of_ok {w : Value} (h : l.apply x l.value = .ok w) :
    foldChain x (l :: links) = foldChain w links := by
  simp only [foldChain, List.foldlM_cons, Link.result, h]
  rfl

theorem foldChain_of_error {e : Fault} (h : l.apply x l.value = .error e) :
    foldChain x (l :: links) = .error ((e.inCall l.operator.name).nearUnit l.operand.mold) := by
  simp only [foldChain, List.foldlM_cons, Link.result, h]
  rfl

theorem chainUnits_cons_append (rest : List Value) : chainUnits (l :: links) ++ rest =
    .word l.operator.name ::
      (commented l.comments ++ l.operand :: (chainUnits links ++ rest)) := by
  simp [chainUnits, Link.units]

end

namespace Stage

variable {S : Stage} {depth patience nesting need : Nat} {f : Feed} {frame : Frame}
  {links : List Link} {rest : List Value}

theorem chain_unclaiming (hlinks : ∀ l ∈ links, l.On S patience need)
    (hrest : S.Ending rest.head?) : S.Unclaiming (chainUnits links ++ rest).head? := by
  cases links with
  | nil => exact hrest.unclaiming
  | cons l links => exact (hlinks l List.mem_cons_self).operator.goes.unclaiming

/-- How a step over a chain ends: with the value and all of the chain consumed, or with the fault. -/
structure Folded (S : Stage) (rest : List Value) (r : Except Fault Value) (o : Outcome Stepped)
    (g : Feed) : Prop where
  comes : S.Comes o (.ofResult r)
  consumes : ∀ v, r = .ok v → g.units = rest

/-- One link after the other takes the value of the step as its left operand. -/
theorem Runs.chain {x : Value} {fuel : Nat} (hS : S.Comments)
    (hlinks : ∀ l ∈ links, l.On S patience need)
    (hrest : S.Ending rest.head?)
    (hneed : need ≤ nesting + 1) (hroom : depth + need + 3 ≤ S.maxDepth)
    (hlimit : depth + need + 3 ≤ S.limit) (hframe : frame.feed = S.feed)
    (hout : frame.out = ⟨some x, false⟩) (hlook : frame.noLookahead = false)
    (hfuel : 2 * links.length + 2 ≤ fuel) (hunits : f.units = chainUnits links ++ rest) :
    S.Runs depth f (Evaluator.drive ⟨stepWithin patience (nesting + 1), patience⟩ fuel frame
      .postSwitch) fun o g _ => S.Folded rest (foldChain x links) o g := by
  -- the invariant is that the frame holds the value of the links so far
  induction links generalizing x f frame fuel with
  | nil =>
    obtain ⟨k, rfl⟩ : ∃ k, fuel = k + 2 := Nat.exists_eq_add_of_le' hfuel
    have hending : S.Ending f.peek := by
      rw [Feed.peek, hunits]
      exact hrest
    apply Gives.drive (by simp) (Gives.closes hframe hending)
    apply Gives.finish.mono
    rintro o g n ⟨_, rfl, rfl, rfl, -⟩
    exact ⟨⟨_, rfl, rfl, hframe, hout⟩, fun _ _ => hunits⟩
  | cons l links ih =>
    obtain ⟨k, rfl⟩ : ∃ k, fuel = k + 2 :=
      Nat.exists_eq_add_of_le' (by simp only [List.length_cons] at hfuel; omega)
    have hl := hlinks l List.mem_cons_self
    have hothers : ∀ l ∈ links, l.On S patience need :=
      fun l hl => hlinks l (List.mem_cons_of_mem _ hl)
    have hunits' : f.units = _ := hunits.trans (chainUnits_cons_append rest)
    have hgoes : S.Goes f.peek l.operator.name l.operator.action := by
      rw [Feed.peek, hunits']
      exact hl.operator.goes
    have hnow : (frame.fulfilling && mustDefer l.operator.action.deferral f.deferring) = false := by
      rw [hl.deferral]
      exact Bool.and_false _
    apply Gives.drive (by simp) (Gives.takes hframe hgoes hlook hout hnow)
    have hcalled : { f with deferring := false }.units = _ := hunits'
    rw [Feed.advance_cons hcalled]
    refine Runs.infixCall hl.operator hframe hneed (by omega) (by omega)
      (commented_more l.comments hl.literal rfl) rfl
      (Gives.operand hS hl.literal (by omega) (by omega) rfl rfl rfl
        (chain_unclaiming hothers hrest)) ?_ ?_
    · intro w n hw
      rw [foldChain_of_ok (hl.apply_of_done hw)]
      refine ih hothers ?_ rfl ?_ ?_ rfl
      · exact hframe
      · exact hlook
      · simp only [List.length_cons] at hfuel
        omega
    · intro o n ho
      have hcomputes := hl.computes x l.value o n ho
      cases happly : l.apply x l.value with
      | ok w =>
        rw [happly] at hcomputes
        subst hcomputes
        trivial
      | error e =>
        rw [happly] at hcomputes
        subst hcomputes
        rw [foldChain_of_error happly]
        exact ⟨rfl, by simp⟩

end Stage

/-- A machine about to step over `1 is comment "two" 2 is false`, where `is` compares anything. -/
def comparing (comment : Action) : Machine :=
  { Machine.new {} with
    scopes := ⟨#[{ bindings :=
      [("comment", .action 0 comment), ("is", .action 0 (sameness .none).action)] }]⟩
    feeds := #[{ units := [.integer 1, .word "is", .word "comment", .text "two", .integer 2,
      .word "is", .logic false], scope := 0 }] }

end Homoicon
