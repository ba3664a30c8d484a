import Homoicon.Proofs.Life
import Homoicon.Proofs.Loops
import Homoicon.Proofs.Routing

/-!
# What becomes of signals

While a signal passes nothing of the machine changes but its stack, from which frames are taken, and
its journal.  What nothing can take reaches the host as it was raised: requests to stop, the exits of
dialects, and returns to activations that have ended.
-/

namespace Homoicon

/-! ### Unwinding -/

/-- Nothing happened but that frames were left and events were noted. -/
def Machine.UnwindsTo (m m' : Machine) : Prop :=
  ∃ stack journal, stack <:+ m.stack ∧ m' = { m with stack, journal }

theorem Machine.UnwindsTo.refl (m : Machine) : m.UnwindsTo m :=
  ⟨m.stack, m.journal, List.suffix_refl _, rfl⟩

theorem Machine.UnwindsTo.trans {m₁ m₂ m₃ : Machine} (h : m₁.UnwindsTo m₂) (h' : m₂.UnwindsTo m₃) :
    m₁.UnwindsTo m₃ := by
  obtain ⟨stack, journal, hs, rfl⟩ := h
  obtain ⟨stack', journal', hs', rfl⟩ := h'
  exact ⟨stack', journal', hs'.trans hs, rfl⟩

theorem Moment.Passes.unwinds {k : Moment} {s : Signal} (h : k.Passes s) (hk : k.Possible) :
    k.before.UnwindsTo k.after := by
  cases k with
  | left id m =>
    obtain ⟨label, rest, hs⟩ := hk
    refine ⟨(m.leave id).stack, m.journal, ?_, rfl⟩
    rw [Machine.stack_leave hs]
    show rest <:+ m.stack
    rw [hs]
    exact List.suffix_cons _ _
  | asked c m =>
    cases c with
    | noteState frame state =>
      show m.UnwindsTo ((Command.noteState frame state).run m).2
      simp only [Command.run]
      split
      · obtain ⟨journal, hm⟩ := m.note_eq (.stepState m.tick frame state)
        rw [hm]
        exact ⟨m.stack, journal, List.suffix_refl _, rfl⟩
      · exact .refl m
    | _ => cases h
  | raised s m => exact .refl m
  | _ => cases h

namespace Evaluator

variable {ev : Evaluator} {R : Signal → Prop}

end Evaluator

/-! ### Activations that have ended -/

/-- The live frames have different numbers, all of them handed out, and none of them was left. -/
structure Current (past : List Moment) (m : Machine) : Prop where
  nodup : (m.stack.map (·.id)).Nodup
  below : ∀ a ∈ m.stack, a.id < m.nextFrame
  ended : ∀ id m', .left id m' ∈ past → id < m.nextFrame ∧ id ∉ m.stack.map (·.id)

namespace Current

variable {past : List Moment} {m m' : Machine}

theorem congr (h : Current past m) (hs : m'.stack = m.stack) (hn : m'.nextFrame = m.nextFrame) :
    Current past m' := by
  refine ⟨?_, ?_, ?_⟩
  · rw [hs]
    exact h.nodup
  · rw [hs, hn]
    exact h.below
  · rw [hs, hn]
    exact h.ended

theorem pass {k : Moment} (h : Current past m) (hk : ∀ id n, k ≠ .left id n) :
    Current (past ++ [k]) m := by
  refine ⟨h.nodup, h.below, fun id n hn => ?_⟩
  rcases List.mem_append.1 hn with hn | hn
  · exact h.ended id n hn
  · exact absurd (List.mem_singleton.1 hn).symm (hk id n)

theorem enter (h : Current past m) (label : Option String) : Current past (m.enter label) := by
  have hfresh : m.nextFrame ∉ m.stack.map (·.id) := by
    intro hmem
    obtain ⟨a, ha, hid⟩ := List.mem_map.1 hmem
    exact Nat.ne_of_lt (h.below a ha) hid
  refine ⟨List.nodup_cons.2 ⟨hfresh, h.nodup⟩, ?_, fun id n hn => ?_⟩
  · refine List.forall_mem_cons.2 ⟨Nat.lt_succ_self _, fun a ha => ?_⟩
    exact Nat.lt_succ_of_lt (h.below a ha)
  · obtain ⟨hlt, hnot⟩ := h.ended id n hn
    refine ⟨Nat.lt_succ_of_lt hlt, ?_⟩
    show id ∉ m.nextFrame :: m.stack.map (·.id)
    exact List.not_mem_cons_of_ne_of_not_mem (Nat.ne_of_lt hlt) hnot

theorem leave {id : FrameId} {label : Option String} {rest : List Activation}
    (h : Current past m) (hs : m.stack = ⟨id, label⟩ :: rest) :
    Current (past ++ [.left id m]) (m.leave id) := by
  have hleave : (m.leave id).stack = rest := Machine.stack_leave hs
  have hnodup := h.nodup
  have hbelow := h.below
  rw [hs] at hnodup hbelow
  obtain ⟨hnot, hrest⟩ := List.nodup_cons.1 hnodup
  obtain ⟨hlt, hall⟩ := List.forall_mem_cons.1 hbelow
  refine ⟨by rw [hleave]; exact hrest, by rw [hleave]; exact hall, fun i n hn => ?_⟩
  rw [hleave]
  rcases List.mem_append.1 hn with hn | hn
  · obtain ⟨hi, hmem⟩ := h.ended i n hn
    rw [hs] at hmem
    exact ⟨hi, fun hin => hmem (List.mem_cons_of_mem _ hin)⟩
  · cases List.mem_singleton.1 hn
    exact ⟨hlt, hnot⟩

theorem step {k : Moment} (h : Current past k.before) (hk : k.Possible) :
    Current (past ++ [k]) k.after := by
  cases k with
  | left id m =>
    obtain ⟨label, rest, hs⟩ := hk
    exact h.leave hs
  | entered label m => exact (h.enter label).pass (by simp)
  | asked c m => exact (h.congr (c.run_frames m).1 (c.run_frames m).2.2).pass (by simp)
  | _ => exact h.pass (by simp)

theorem run {t : List Moment} (h : Current past m) (ht : Connected m t m') :
    Current (past ++ t) m' ∧
      ∀ before k after, t = before ++ k :: after → Current (past ++ before) k.before := by
  induction t generalizing past m with
  | nil =>
    obtain rfl := ht
    refine ⟨by simpa using h, fun before k after heq => ?_⟩
    simp at heq
  | cons j rest ih =>
    obtain ⟨rfl, hj, hrest⟩ := ht
    obtain ⟨hend, hall⟩ := ih (h.step hj) hrest
    refine ⟨by simpa using hend, fun before k after heq => ?_⟩
    cases before with
    | nil =>
      obtain ⟨rfl, -⟩ := List.cons.inj heq
      simpa using h
    | cons i before =>
      obtain ⟨rfl, htail⟩ := List.cons.inj heq
      simpa using hall before k after htail

theorem withRegistry {c : Config} {r : Registry} {listening : Bool} {s : Session}
    (h : Session.withRegistry c r listening = .ok s) :
    Current ((Session.prepare r).trace { Machine.new c with listening }) s.machine := by
  obtain ⟨e, hs⟩ := Session.withRegistry_eq_ok h
  have hnew : Current [] { Machine.new c with listening } :=
    ⟨by simp [Machine.new], by simp [Machine.new], by simp⟩
  have hrun := (hnew.run ((Session.prepare r).trace_connected _)).1
  rw [List.nil_append] at hrun
  rw [hs]
  exact hrun.congr (Machine.note_stack _ e) (Machine.note_nextFrame _ e)

end Current

theorem Lived.current {c : Config} {t : List Moment} {s : Session} (h : Lived c t s) :
    Current t s.machine := by
  induction h with
  | start h => exact .withRegistry h
  | @serve t s r _ _ ih =>
    cases hcode : r.code? with
    | some units =>
      obtain ⟨journal, hm⟩ := HostRequest.serve_machine s hcode
      have hrun := (ih.run ((s.evaluator.runUnits units s.user).trace_connected s.machine)).1
      rw [hm, HostRequest.moments_of_code hcode]
      exact hrun.congr rfl rfl
    | none =>
      obtain ⟨hs, -, hn, -⟩ := HostRequest.serve_idle s hcode
      rw [HostRequest.moments_idle hcode, List.append_nil]
      exact ih.congr hs hn

/-! ### Signals that reach the host -/

/-- A request to stop, the exit of a dialect, or a return to an activation that has ended. -/
def Signal.IsFinal (past : List Moment) (s : Signal) : Prop :=
  s.label = .halt ∨ (∃ name, s.label = .dialect name) ∨
    ∃ id m, s.label = .returnTo id ∧ .left id m ∈ past

theorem Signal.IsFinal.mono {past past' : List Moment} {s : Signal} (h : s.IsFinal past)
    (hpast : ∀ k ∈ past, k ∈ past') : s.IsFinal past' := by
  refine h.imp_right (Or.imp_right ?_)
  rintro ⟨id, m, hlabel, hleft⟩
  exact ⟨id, m, hlabel, hpast _ hleft⟩

/-- What a host gets from a request that a signal ended: the signal as it was, or the way in which it
ended a dialect. -/
def HostRequest.Receives (s : Session) (signal : Signal) : HostRequest → Prop
  | text source => (s.evalText source).1 = .error (.signal signal)
  | units us => (s.evalUnits us).1 = .error (.signal signal)
  | items is => (s.evalItems is).1 = .error (.signal signal)
  | dialect source =>
    (s.evalDialect source).1 = .error (.signal signal) ∨
      signal.label = .dialect Signal.acceptName ∧
        (s.evalDialect source).1 = .ok (.accepted signal.payload) ∨
      signal.label = .dialect Signal.rejectName ∧ (s.evalDialect source).1 = .ok .rejected
  | _ => False

theorem HostRequest.receives {s : Session} {r : HostRequest} {units : List Value} {signal : Signal}
    (hcode : r.code? = some units)
    (h : (s.evaluator.runUnits units s.user s.machine).1 = .thrown signal) :
    r.Receives s signal := by
  have hunits : (s.evalUnits units).1 = .error (.signal signal) := by
    simp only [Session.evalUnits, Session.run_eq, h]
  cases r with
  | text source =>
    rw [Receives, s.evalText_of_scan (except_toOption_eq_some.1 hcode)]
    exact hunits
  | units us =>
    cases hcode
    exact hunits
  | items is =>
    rw [Receives, s.evalItems_of_units (except_toOption_eq_some.1 hcode)]
    exact hunits
  | dialect source =>
    simp only [Receives, Session.evalDialect, except_toOption_eq_some.1 hcode,
      Session.run_eq, h]
    split
    · rename_i name hlabel
      split
      · rename_i hname
        exact .inr (.inl ⟨by rw [hlabel, hname], rfl⟩)
      · split
        · rename_i hname
          exact .inr (.inr ⟨by rw [hlabel, hname], rfl⟩)
        · exact .inl rfl
    · exact .inl rfl
  | _ => cases hcode

end Homoicon
