import Homoicon.Proofs.Life

/-!
# Termination

Evaluation comes to an end by itself unless a `while` begins.  No loop of the evaluator runs out of
fuel: each is bounded by the units that are left, by the chain of adaptations of an action, by the
count of a loop, or by the frames that may still be entered.  Patience, which only `while` needs, may
be none at all.
-/

namespace Homoicon

def Facts.standard : Facts where
  native n := n ∈ Registry.standard.natives
  overflow _ := True

theorem Registry.standard_not_host :
    ∀ n ∈ Registry.standard.natives, ∀ op, n.operation ≠ .host op := by
  intro n hn op
  have hall : Registry.standard.natives.all (fun n => match n.operation with
      | .host _ => false
      | _ => true) = true := by decide
  intro heq
  have := List.all_eq_true.1 hall n hn
  rw [heq] at this
  cases this

/-- The guard that lets nothing give up until a `while` begins. -/
def Guard.untilWhile (maxDepth : Nat) : Guard Facts.standard where
  stop k := k.startsWhile = true
  patient := False
  maxDepth := maxDepth
  refused _ _ := .inr trivial
  whileTrue n hn := .inl fun c m => by simp [Moment.startsWhile, hn]
  host n op hn hop := Registry.standard_not_host n hn op hop

theorem Guard.At.ends {F : Facts} {G : Guard F} {α : Type} {Q : α → Prop} {x : Eval α} {m : Machine}
    (h : G.At Q x m) (himpatient : ¬G.patient) (hu : G.Unstopped (x.trace m)) :
    (x m).1 ≠ .exhausted ∧ ∀ m', .gaveUp m' ∉ x.trace m := by
  obtain ⟨hclean, hpost⟩ := h
  refine ⟨fun hx => ?_, fun m' hm' => ?_⟩
  · have hallows := (hpost hu).1
    rw [hx] at hallows
    exact himpatient hallows
  · obtain ⟨before, after, ht⟩ := List.append_of_mem hm'
    rw [ht] at hclean hu
    exact himpatient (hclean.fine hu.of_append.1)

def Session.evaluatorWith (s : Session) (patience : Nat) : Evaluator :=
  ⟨stepWithin patience (s.machine.config.maxDepth + 1), patience⟩

def HostRequest.GivesUp (s : Session) : HostRequest → Prop
  | text source => (s.evalText source).1 = .error .exhausted
  | units us => (s.evalUnits us).1 = .error .exhausted
  | items is => (s.evalItems is).1 = .error .exhausted
  | dialect source => (s.evalDialect source).1 = .error .exhausted
  | _ => False

theorem HostRequest.GivesUp.exhausted {s : Session} {r : HostRequest} {units : List Value}
    (h : r.GivesUp s) (hcode : r.code? = some units) :
    (s.evaluator.runUnits units s.user s.machine).1 = .exhausted := by
  have hunits : (s.evalUnits units).1 = .error .exhausted →
      (s.evaluator.runUnits units s.user s.machine).1 = .exhausted := by
    simp only [Session.evalUnits, Session.run_eq]
    rcases s.evaluator.runUnits units s.user s.machine with ⟨_ | _ | _ | _, m⟩ <;> simp
  cases r with
  | text source =>
    rw [GivesUp, s.evalText_of_scan (except_toOption_eq_some.1 hcode)] at h
    exact hunits h
  | units us =>
    cases hcode
    exact hunits h
  | items is =>
    rw [GivesUp, s.evalItems_of_units (except_toOption_eq_some.1 hcode)] at h
    exact hunits h
  | dialect source =>
    simp only [GivesUp, Session.evalDialect, except_toOption_eq_some.1 hcode, Session.run_eq] at h
    revert h
    rcases s.evaluator.runUnits units s.user s.machine with ⟨_ | signal | _ | _, m⟩
    · simp
    · dsimp only
      split
      · split
        · simp
        · split <;> simp
      · simp
    · simp
    · simp
  | _ => cases hcode

/-- In a session with the standard library, code in which no `while` begins runs to its end, however
little patience there is, and no loop within it gives up. -/
theorem Lived.requests_end {c : Config} {t : List Moment} {s : Session} (h : Lived c t s)
    {r : HostRequest} (hr : r.Good Facts.standard) {units : List Value}
    (hcode : r.code? = some units) :
    (∀ patience, let run := (s.evaluatorWith patience).runUnits units s.user
      (∀ k ∈ run.trace s.machine, k.startsWhile = false) →
        (run s.machine).1 ≠ .exhausted ∧ ∀ m, .gaveUp m ∉ run.trace s.machine) ∧
    ((∀ k ∈ r.moments s, k.startsWhile = false) → ¬r.GivesUp s) := by
  have hsound := h.sound
  have hle : (Facts.after c.maxDepth t).Le Facts.standard :=
    { native := fun _ hn => hn, overflow := fun _ _ => trivial }
  have hends : ∀ patience, let run := (s.evaluatorWith patience).runUnits units s.user
      (∀ k ∈ run.trace s.machine, k.startsWhile = false) →
        (run s.machine).1 ≠ .exhausted ∧ ∀ m, .gaveUp m ∉ run.trace s.machine := by
    intro patience run hwhile
    have hholds : ((Guard.untilWhile c.maxDepth).logic (c.maxDepth + 1)).Holds {}
        (Value.GoodMaybe Facts.standard) run := by
      have hnested := (Guard.untilWhile c.maxDepth).nested patience (c.maxDepth + 1)
      rw [← hsound.config] at hnested ⊢
      exact hnested.runUnits (hr.code hcode)
    have hat := Guard.at_of_holds (hsound.fits hle rfl) hholds
    refine hat.ends (fun hpatient => hpatient) fun k hk hstop => ?_
    exact Bool.noConfusion ((hwhile k hk).symm.trans hstop)
  refine ⟨hends, fun hwhile hgives => ?_⟩
  rw [HostRequest.moments_of_code hcode] at hwhile
  exact (hends defaultPatience hwhile).1 (hgives.exhausted hcode)

theorem Lived.requests_end_excursion :
    ∃ t s, Lived { maxDepth := 6 } t s ∧ (∀ k ∈ excursion.moments s, k.startsWhile = false) ∧
      excursion.moments s ≠ [] ∧ ¬excursion.GivesUp s := by
  obtain ⟨t, s, units, hlived, hcode, ⟨k, hk, -⟩, -, hwhile⟩ := exists_excursion
  have hends := (hlived.requests_end (r := excursion) trivial hcode).2 hwhile
  exact ⟨t, s, hlived, hwhile, List.ne_nil_of_mem hk, hends⟩

end Homoicon
