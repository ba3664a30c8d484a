import Homoicon.Proofs.Delivery

/-!
# Checkpoints

Every step begins with a checkpoint, which counts a tick.  Over the whole life of a session the
countdown says how many ticks are left until the tick is next divisible by the period; then, and only
then, the hook is asked and a requested stop is taken up.  A stop that was requested ends the
request at that tick, whatever the code that runs, and nothing is bound after it.
-/

namespace Homoicon

/-! ### The clock -/

namespace Machine

variable {m : Machine}

/-- The countdown says how many ticks are left until the next one that the period divides. -/
def OnTime (m : Machine) : Prop :=
  m.countdown = m.config.pollPeriod - m.tick % m.config.pollPeriod

theorem new_onTime (c : Config) : (new c).OnTime := by
  show c.pollPeriod = c.pollPeriod - 0 % c.pollPeriod
  rw [Nat.zero_mod, Nat.sub_zero]

theorem OnTime.countdown_pos (h : m.OnTime) : 1 ≤ m.countdown := by
  have hlt := Nat.mod_lt m.tick m.config.pollPeriod_pos
  have heq : m.countdown = _ := h
  omega

theorem OnTime.countdown_le (h : m.OnTime) : m.countdown ≤ m.config.pollPeriod := by
  have heq : m.countdown = _ := h
  omega

theorem OnTime.countdown_eq_one_iff (h : m.OnTime) :
    m.countdown = 1 ↔ m.config.pollPeriod ∣ m.tick + 1 := by
  have hlt := Nat.mod_lt m.tick m.config.pollPeriod_pos
  have heq : m.countdown = _ := h
  rw [Nat.dvd_iff_mod_eq_zero, ← Nat.mod_add_mod]
  constructor
  · intro hone
    have hfull : m.tick % m.config.pollPeriod + 1 = m.config.pollPeriod := by omega
    rw [hfull, Nat.mod_self]
  · intro hzero
    have hfull : ¬m.tick % m.config.pollPeriod + 1 < m.config.pollPeriod := by
      intro hroom
      rw [Nat.mod_eq_of_lt hroom] at hzero
      omega
    omega

theorem poll_waits (h : 1 < m.countdown) :
    m.poll = (none, { m with tick := m.tick + 1, countdown := m.countdown - 1 }) := by
  have hleft : 0 < m.countdown - 1 := by omega
  simp only [poll, hleft, if_true]

/-- The next time the countdown is over, a stop is found to be requested: the flag is set, or the
hook will say so. -/
def StopDue (m : Machine) : Prop :=
  m.interrupt = true ∨ ∃ ask, m.hook = some ask ∧ ask (m.tick + m.countdown) = true

theorem poll_checks (h : m.countdown = 1) : ∃ interrupt journal,
    m.poll.2 = { m with
      tick := m.tick + 1
      countdown := m.config.pollPeriod
      interrupt
      polled := if m.hook.isSome then m.polled.push (m.tick + 1) else m.polled
      journal } ∧
    (m.StopDue → m.poll.1 = some Signal.halt ∧ interrupt = false) := by
  have hover : ¬0 < m.countdown - 1 := by omega
  cases hhook : m.hook with
  | none =>
    by_cases hset : m.interrupt = true
    · obtain ⟨journal, hnote⟩ := note_eq { m with
        tick := m.tick + 1, countdown := m.config.pollPeriod, interrupt := false }
        (.interrupted (m.tick + 1))
      refine ⟨false, journal, ?_, fun _ => ⟨?_, rfl⟩⟩
      · simp only [poll, hover, if_false, hhook, hset, if_true]
        rw [← hhook, hnote]
        simp [hhook]
      · simp only [poll, hover, if_false, hhook, hset, if_true]
    · refine ⟨m.interrupt, m.journal, ?_, fun hstop => ?_⟩
      · simp [poll, hover, hhook, hset]
      · obtain hstop | ⟨ask, hask, -⟩ := hstop
        · exact absurd hstop hset
        · cases hhook.symm.trans hask
  | some ask =>
    by_cases hset : (m.interrupt || ask (m.tick + 1)) = true
    · obtain ⟨journal, hnote⟩ := note_eq { m with
        tick := m.tick + 1, countdown := m.config.pollPeriod, interrupt := false
        polled := m.polled.push (m.tick + 1) } (.interrupted (m.tick + 1))
      refine ⟨false, journal, ?_, fun _ => ⟨?_, rfl⟩⟩
      · simp only [poll, hover, if_false, hhook, hset, if_true]
        rw [← hhook, hnote]
        simp [hhook]
      · simp only [poll, hover, if_false, hhook, hset, if_true]
    · refine ⟨m.interrupt || ask (m.tick + 1), m.journal, ?_, fun hstop => absurd ?_ hset⟩
      · simp only [poll, hover, if_false, hhook, hset]
        simp
      · obtain hstop | ⟨ask', hask, hyes⟩ := hstop
        · simp [hstop]
        · cases hhook.symm.trans hask
          rw [h] at hyes
          simp [hyes]

theorem OnTime.poll (h : m.OnTime) : m.poll.2.OnTime := by
  have hpos := h.countdown_pos
  have heq : m.countdown = _ := h
  have hdue := h.countdown_eq_one_iff
  by_cases hone : m.countdown = 1
  · obtain ⟨interrupt, journal, hm, -⟩ := poll_checks hone
    rw [hm]
    show m.config.pollPeriod = m.config.pollPeriod - (m.tick + 1) % m.config.pollPeriod
    rw [Nat.mod_eq_zero_of_dvd (hdue.1 hone), Nat.sub_zero]
  · rw [poll_waits (by omega)]
    show m.countdown - 1 = m.config.pollPeriod - (m.tick + 1) % m.config.pollPeriod
    have hroom : m.tick % m.config.pollPeriod + 1 < m.config.pollPeriod := by omega
    rw [← Nat.mod_add_mod, Nat.mod_eq_of_lt hroom]
    omega

/-- What checkpoints count with. -/
def clock (m : Machine) : Config × Nat × Nat × Option (Nat → Bool) × Array Nat :=
  (m.config, m.tick, m.countdown, m.hook, m.polled)

theorem clock_eq {m m' : Machine} (h : m'.clock = m.clock) :
    m'.config = m.config ∧ m'.tick = m.tick ∧ m'.countdown = m.countdown ∧ m'.hook = m.hook ∧
      m'.polled = m.polled := by
  simpa [clock] using h

theorem OnTime.congr {m' : Machine} (h : m.OnTime) (hconfig : m'.config = m.config)
    (htick : m'.tick = m.tick) (hcountdown : m'.countdown = m.countdown) : m'.OnTime := by
  unfold OnTime
  rw [hconfig, htick, hcountdown]
  exact h

theorem note_clock (m : Machine) (e : Event) :
    (m.note e).clock = m.clock ∧ (m.note e).interrupt = m.interrupt := by
  obtain ⟨_, h⟩ := m.note_eq e
  rw [h]
  exact ⟨rfl, rfl⟩

end Machine

namespace Moment

def isPoll : Moment → Bool
  | .asked .poll _ => true
  | _ => false

/-- The tick that a moment counts. -/
def tick? : Moment → Option Nat
  | .asked .poll m => some (m.tick + 1)
  | _ => none

/-- A checkpoint counts one tick and asks the hook, if there is one, exactly when the period divides
the tick; nothing else touches the clock. -/
def KeepsTime (period : Nat) : Moment → Prop
  | .asked .poll m =>
    m.poll.2.tick = m.tick + 1 ∧
      m.poll.2.polled =
        if m.hook.isSome ∧ period ∣ m.tick + 1 then m.polled.push (m.tick + 1) else m.polled
  | k => k.after.clock = k.before.clock

theorem after_clock {k : Moment} (hk : k.isPoll = false) :
    k.after.clock = k.before.clock ∧ (k.before.interrupt = true → k.after.interrupt = true) := by
  cases k with
  | asked c m =>
    cases c with
    | poll => cases hk
    | assign scope name v =>
      obtain ⟨_, h⟩ := m.assign_eq scope name v
      rw [after, Command.run, h]
      exact ⟨rfl, id⟩
    | note e => exact ⟨(m.note_clock e).1, fun h => (m.note_clock e).2.trans h⟩
    | noteState frame state =>
      simp only [after, before, Command.run]
      split
      · have hnote := m.note_clock (.stepState m.tick frame state)
        exact ⟨hnote.1, fun h => hnote.2.trans h⟩
      · exact ⟨rfl, id⟩
    | requestStop => exact ⟨rfl, fun _ => rfl⟩
    | _ => exact ⟨rfl, id⟩
  | _ => exact ⟨rfl, id⟩

theorem poll_cases (k : Moment) : (∃ m, k = .asked .poll m) ∨ k.isPoll = false := by
  cases k with
  | asked c m =>
    cases c with
    | poll => exact .inl ⟨m, rfl⟩
    | _ => exact .inr rfl
  | _ => exact .inr rfl

theorem keepsTime {k : Moment} (h : k.before.OnTime) :
    k.KeepsTime k.before.config.pollPeriod := by
  obtain ⟨m, rfl⟩ | hk := k.poll_cases
  · have hdue := Machine.OnTime.countdown_eq_one_iff h
    have hpos := Machine.OnTime.countdown_pos h
    show m.poll.2.tick = m.tick + 1 ∧ m.poll.2.polled =
      if m.hook.isSome ∧ m.config.pollPeriod ∣ m.tick + 1 then m.polled.push (m.tick + 1)
      else m.polled
    have hdue : m.countdown = 1 ↔ m.config.pollPeriod ∣ m.tick + 1 := hdue
    have hpos : 1 ≤ m.countdown := hpos
    by_cases hone : m.countdown = 1
    · obtain ⟨interrupt, journal, hm, -⟩ := Machine.poll_checks hone
      rw [hm]
      refine ⟨rfl, ?_⟩
      simp only [hdue.1 hone, and_true]
    · rw [Machine.poll_waits (by omega)]
      refine ⟨rfl, ?_⟩
      rw [if_neg fun hask => hone (hdue.2 hask.2)]
  · unfold KeepsTime
    split
    · cases hk
    · exact (after_clock hk).1

theorem after_onTime {k : Moment} (h : k.before.OnTime) : k.after.OnTime := by
  obtain ⟨m, rfl⟩ | hk := k.poll_cases
  · exact Machine.OnTime.poll h
  · obtain ⟨hconfig, htick, hcountdown, -, -⟩ := Machine.clock_eq (after_clock hk).1
    exact h.congr hconfig htick hcountdown

theorem tick?_eq_none {k : Moment} (hk : k.isPoll = false) : k.tick? = none := by
  unfold tick?
  split
  · cases hk
  · rfl

end Moment

namespace Connected

variable {m m' : Machine} {t : List Moment}

theorem onTime (h : Connected m t m') (hm : m.OnTime) :
    (∀ k ∈ t, k.before.OnTime ∧ k.after.OnTime) ∧ m'.OnTime :=
  h.invariant (fun _ _ hk => Moment.after_onTime hk) hm

theorem ticks (h : Connected m t m') (hm : m.OnTime) :
    ∃ n, m'.tick = m.tick + n ∧ t.filterMap Moment.tick? = List.range' (m.tick + 1) n := by
  induction t generalizing m with
  | nil =>
    obtain rfl := h
    exact ⟨0, rfl, rfl⟩
  | cons k rest ih =>
    obtain ⟨rfl, -, hrest⟩ := h
    obtain ⟨n, hlast, hticks⟩ := ih hrest (Moment.after_onTime hm)
    obtain ⟨m₀, rfl⟩ | hk := k.poll_cases
    · have htick : (Moment.asked .poll m₀).after.tick = m₀.tick + 1 := (Moment.keepsTime hm).1
      rw [htick] at hlast hticks
      refine ⟨n + 1, by rw [hlast]; exact Nat.add_right_comm .., ?_⟩
      rw [List.filterMap_cons_some (f := Moment.tick?) rfl, hticks, List.range'_succ]
      rfl
    · have htick := (Machine.clock_eq (Moment.after_clock hk).1).2.1
      rw [htick] at hlast hticks
      exact ⟨n, hlast, by rw [List.filterMap_cons_none (Moment.tick?_eq_none hk), hticks]⟩

theorem takes_stop (h : Connected m t m') (hm : m.OnTime) (hstop : m.StopDue) :
    t.countP Moment.isPoll < m.countdown ∨
      ∃ pre n post, t = pre ++ .asked .poll n :: post ∧
        pre.countP Moment.isPoll + 1 = m.countdown ∧ n.poll.1 = some Signal.halt ∧
        n.poll.2.interrupt = false := by
  induction t generalizing m with
  | nil => exact .inl hm.countdown_pos
  | cons k rest ih =>
    obtain ⟨rfl, -, hrest⟩ := h
    have hafter := Moment.after_onTime hm
    have hpos := hm.countdown_pos
    obtain ⟨m₀, rfl⟩ | hk := k.poll_cases
    · simp only [Moment.before] at hm hstop hpos ⊢
      by_cases hone : m₀.countdown = 1
      · obtain ⟨interrupt, journal, hm₀, hhalts⟩ := Machine.poll_checks hone
        obtain ⟨hsignal, hflag⟩ := hhalts hstop
        refine .inr ⟨[], m₀, rest, rfl, hone.symm, hsignal, ?_⟩
        rw [hm₀]
        exact hflag
      · -- the checkpoint only counts, and what is due is one tick nearer
        have hwaits := Machine.poll_waits (m := m₀) (by omega)
        have hm₁ : (Moment.asked .poll m₀).after =
            { m₀ with tick := m₀.tick + 1, countdown := m₀.countdown - 1 } := by
          show m₀.poll.2 = _
          rw [hwaits]
        rw [hm₁] at hafter hrest
        have hdue : m₀.tick + 1 + (m₀.countdown - 1) = m₀.tick + m₀.countdown := by omega
        have hstop' : Machine.StopDue
            { m₀ with tick := m₀.tick + 1, countdown := m₀.countdown - 1 } := by
          unfold Machine.StopDue
          rw [hdue]
          exact hstop
        rcases ih hrest hafter hstop' with hfew | ⟨pre, n, post, rfl, hcount, hsignal, hflag⟩
        · refine .inl ?_
          rw [List.countP_cons_of_pos rfl]
          dsimp only at hfew
          omega
        · refine .inr ⟨.asked .poll m₀ :: pre, n, post, rfl, ?_, hsignal, hflag⟩
          rw [List.countP_cons_of_pos rfl]
          dsimp only at hcount
          omega
    · -- no checkpoint: the clock stands
      obtain ⟨hclock, hflag⟩ := Moment.after_clock hk
      obtain ⟨-, htick, hcountdown, hhook, -⟩ := Machine.clock_eq hclock
      have hstop' : k.after.StopDue := by
        unfold Machine.StopDue
        rw [htick, hcountdown, hhook]
        exact hstop.imp_left hflag
      have hcons : ∀ l, (k :: l).countP Moment.isPoll = l.countP Moment.isPoll :=
        fun l => List.countP_cons_of_neg (by simp [hk])
      rw [← hcountdown]
      rcases ih hrest hafter hstop' with hfew | ⟨pre, n, post, rfl, hcount, hsignal, hoff⟩
      · exact .inl (by rw [hcons]; exact hfew)
      · exact .inr ⟨k :: pre, n, post, rfl, by rw [hcons]; exact hcount, hsignal, hoff⟩

theorem unwinds {s : Signal} (h : Connected m t m') (hpass : ∀ k ∈ t, k.Passes s) :
    (∀ k ∈ t, m.UnwindsTo k.after) ∧ m.UnwindsTo m' := by
  induction t generalizing m with
  | nil =>
    obtain rfl := h
    exact ⟨by simp, .refl m⟩
  | cons k rest ih =>
    obtain ⟨rfl, hk, hrest⟩ := h
    obtain ⟨hpass, hothers⟩ := List.forall_mem_cons.1 hpass
    have hstep := hpass.unwinds hk
    obtain ⟨hall, hlast⟩ := ih hrest hothers
    exact ⟨List.forall_mem_cons.2 ⟨hstep, fun j hj => hstep.trans (hall j hj)⟩,
      hstep.trans hlast⟩

theorem behind {pre post : List Moment} {k : Moment} (h : Connected m (pre ++ k :: post) m') :
    Connected k.after post m' := by
  induction pre generalizing m with
  | nil => exact h.2.2
  | cons j rest ih => exact ih h.2.2

theorem split {before after : List Moment} {n : Machine} (h : Connected m (before ++ after) m')
    (hn : Connected m before n) : Connected n after m' := by
  induction before generalizing m with
  | nil =>
    obtain rfl := hn
    exact h
  | cons k rest ih => exact ih h.2.2 hn.2.2

end Connected

/-! ### Nothing takes a stop -/

theorem Taker.takes_halt (taker : Taker) : taker.takes Signal.halt = false := by
  cases taker <;> rfl

theorem Moment.not_takes_halt (k : Moment) (past : List Moment) : ¬k.Takes past Signal.halt := by
  intro h
  unfold Moment.Takes at h
  split at h
  · rename_i taker _ _
    rw [taker.takes_halt] at h
    exact Bool.noConfusion h.2.1
  · exact h

theorem Routed.halt_passes {ended : Option Signal} {past t : List Moment}
    (h : Routed Signal.halt ended past t) :
    (∀ k ∈ t, k.Passes Signal.halt) ∧ ended = some Signal.halt := by
  induction t generalizing past with
  | nil => exact ⟨by simp, h⟩
  | cons k rest ih =>
    obtain ⟨hpasses, hrest⟩ := h.resolve_left (k.not_takes_halt past)
    obtain ⟨hall, hended⟩ := ih hrest
    exact ⟨List.forall_mem_cons.2 ⟨hpasses, hall⟩, hended⟩

theorem Lawful.routed {ended : Option Signal} {past before after : List Moment} {k : Moment}
    {s : Signal} (h : Lawful ended past (before ++ k :: after)) (hk : k.raises? = some s) :
    Routed s ended (past ++ before ++ [k]) after := by
  induction before generalizing past with
  | nil => simpa using h.1 s hk
  | cons j before ih => simpa using ih h.2

theorem Moment.Passes.isPoll {k : Moment} {s : Signal} (h : k.Passes s) : k.isPoll = false := by
  obtain ⟨m, rfl⟩ | hk := k.poll_cases
  · cases h
  · exact hk

/-! ### Requests -/

namespace HostRequest

def error? (s : Session) : HostRequest → Option HostError
  | text source => exceptError? (s.evalText source).1
  | units us => exceptError? (s.evalUnits us).1
  | items is => exceptError? (s.evalItems is).1
  | dialect source => exceptError? (s.evalDialect source).1
  | _ => none
where
  exceptError? {α : Type} : Except HostError α → Option HostError
    | .ok _ => none
    | .error e => some e

theorem Receives.halt {s : Session} {r : HostRequest} (h : r.Receives s Signal.halt) :
    r.error? s = some (.signal Signal.halt) := by
  cases r with
  | text source | units us | items is =>
    simp only [Receives] at h
    simp only [error?, h, error?.exceptError?]
  | dialect source =>
    obtain h | ⟨h, -⟩ | ⟨h, -⟩ := h
    · simp only [error?, h, error?.exceptError?]
    · cases h
    · cases h
  | _ => cases h

/-- A checkpoint among the moments `t` of a request takes up a stop: it clears the flag, after it
nothing happens but that frames are left, and the host is told of the stop. -/
def HaltsAt (s : Session) (r : HostRequest) (countdown : Nat) (t : List Moment) : Prop :=
  ∃ pre n post, t = pre ++ .asked .poll n :: post ∧
    pre.countP Moment.isPoll + 1 = countdown ∧
    n.poll.1 = some Signal.halt ∧ n.poll.2.interrupt = false ∧
    (∀ k ∈ post, k.Passes Signal.halt ∧ n.poll.2.UnwindsTo k.after) ∧
    n.poll.2.UnwindsTo (r.serve s).machine ∧
    r.error? s = some (.signal Signal.halt)

theorem HaltsAt.polls {s : Session} {r : HostRequest} {countdown : Nat} {t : List Moment}
    (h : r.HaltsAt s countdown t) : t.countP Moment.isPoll = countdown := by
  obtain ⟨pre, n, post, rfl, hcount, -, -, hpost, -, -⟩ := h
  have hnone : post.countP Moment.isPoll = 0 :=
    List.countP_eq_zero.2 fun k hk => by simp [(hpost k hk).1.isPoll]
  rw [List.countP_append, List.countP_cons_of_pos rfl, hnone]
  exact hcount

theorem serve_clock (s : Session) {r : HostRequest} (h : r.code? = none) :
    (r.serve s).machine.tick = s.machine.tick ∧
      (r.serve s).machine.countdown = s.machine.countdown := by
  cases r with
  | text source =>
    simp only [serve, Session.evalText]
    split
    · rename_i hs
      simp [code?, hs, Except.toOption] at h
    · exact ⟨rfl, rfl⟩
  | dialect source =>
    simp only [serve, Session.evalDialect]
    split
    · exact ⟨rfl, rfl⟩
    · rename_i hs
      simp [code?, hs, Except.toOption] at h
  | items is =>
    simp only [serve, Session.evalItems]
    split
    · rename_i hs
      simp [code?, hs, Except.toOption] at h
    · exact ⟨rfl, rfl⟩
  | units us => cases h
  | _ => exact ⟨rfl, rfl⟩

theorem halts {s : Session} {r : HostRequest} {code : List Value} {before after : List Moment}
    {m : Machine} (hcode : r.code? = some code) (hmoments : r.moments s = before ++ after)
    (hm : Connected s.machine before m) (htime : s.machine.OnTime) (hstop : m.StopDue) :
    after.countP Moment.isPoll < m.countdown ∨ r.HaltsAt s m.countdown after := by
  rw [moments_of_code hcode] at hmoments
  have hholds : routing.Holds {} (Value.GoodMaybe Facts.all) (s.evaluator.runUnits code s.user) :=
    (Routes.nested _ _).runUnits (Value.goodAll_all code)
  have hlaw := (Routes.of_holds hholds [] s.machine).lawful
  have hconn := (s.evaluator.runUnits code s.user).trace_connected s.machine
  rw [hmoments] at hlaw hconn
  have hrest := hconn.split hm
  refine (hrest.takes_stop (hm.onTime htime).2 hstop).imp_right ?_
  rintro ⟨pre, n, post, rfl, hcount, hsignal, hflag⟩
  rw [← List.append_assoc] at hlaw
  obtain ⟨hpasses, hended⟩ := (hlaw.routed (k := .asked .poll n) hsignal).halt_passes
  have hthrown : (s.evaluator.runUnits code s.user s.machine).1 = .thrown Signal.halt := by
    rcases h : (s.evaluator.runUnits code s.user s.machine).1 with _ | s' | _ | _ <;>
      rw [h] at hended <;> cases hended
    rfl
  obtain ⟨hunwinds, hlast⟩ := hrest.behind.unwinds hpasses
  refine ⟨pre, n, post, rfl, hcount, hsignal, hflag, fun k hk => ⟨hpasses k hk, hunwinds k hk⟩, ?_,
    (receives hcode hthrown).halt⟩
  obtain ⟨journal, hserve⟩ := serve_machine s hcode
  obtain ⟨stack, journal', hsuffix, hend⟩ := hlast
  rw [hserve, hend]
  exact ⟨stack, journal, hsuffix, rfl⟩

end HostRequest

/-! ### Lives -/

theorem Lived.onTime {c : Config} {t : List Moment} {s : Session} (h : Lived c t s) :
    s.machine.OnTime ∧ (∀ k ∈ t, k.before.OnTime ∧ k.after.OnTime) ∧
      t.filterMap Moment.tick? = List.range' 1 s.machine.tick := by
  induction h with
  | @start listening s h =>
    obtain ⟨e, hs⟩ := Session.withRegistry_eq_ok h
    have hnew : ({ Machine.new c with listening } : Machine).OnTime :=
      (Machine.new_onTime c).congr rfl rfl rfl
    have hconn := (Session.prepare .standard).trace_connected { Machine.new c with listening }
    obtain ⟨hall, hlast⟩ := hconn.onTime hnew
    obtain ⟨n, hn, hticks⟩ := hconn.ticks hnew
    obtain ⟨hconfig, htick, hcountdown, -, -⟩ := Machine.clock_eq
      ((Session.prepare .standard { Machine.new c with listening }).2.note_clock e).1
    rw [hs]
    refine ⟨hlast.congr hconfig htick hcountdown, hall, ?_⟩
    rw [hticks, htick, hn]
    simp [Machine.new]
  | @serve t s r _ _ ih =>
    obtain ⟨htime, hall, hticks⟩ := ih
    cases hcode : r.code? with
    | none =>
      obtain ⟨htick, hcountdown⟩ := HostRequest.serve_clock s hcode
      have hconfig := (HostRequest.serve_idle s hcode).2.1
      rw [HostRequest.moments_idle hcode, List.append_nil]
      refine ⟨htime.congr hconfig htick hcountdown, hall, ?_⟩
      rw [hticks, htick]
    | some code =>
      obtain ⟨journal, hm⟩ := HostRequest.serve_machine s hcode
      have hconn := (s.evaluator.runUnits code s.user).trace_connected s.machine
      obtain ⟨hall', hlast⟩ := hconn.onTime htime
      obtain ⟨n, hn, hticks'⟩ := hconn.ticks htime
      rw [hm, HostRequest.moments_of_code hcode]
      refine ⟨hlast.congr rfl rfl rfl, List.forall_mem_append.2 ⟨hall, hall'⟩, ?_⟩
      show _ = List.range' 1 (s.evaluator.runUnits code s.user s.machine).2.tick
      rw [List.filterMap_append, hticks, hticks', Nat.add_comm s.machine.tick 1,
        List.range'_append_1, hn]

/-- Checkpoints in the life of a session.  The countdown is always the number of ticks until the
next one that the period divides, ticks are counted without a gap, and the hook is asked at exactly
those.  A stop that is due at some point of a request ends it at that tick, if it has not ended
before: the flag is cleared, no step begins and nothing is bound any more, and the host is told.
Whoever sets the flag while code runs counts as a hook that says so, since only checkpoints read
it. -/
theorem Lived.stops_in_time {c : Config} {t : List Moment} {s : Session} (h : Lived c t s) :
    (∀ m, m = s.machine ∨ (∃ k ∈ t, m = k.before ∨ m = k.after) →
      1 ≤ m.countdown ∧ m.countdown ≤ c.pollPeriod ∧
        m.countdown = c.pollPeriod - m.tick % c.pollPeriod) ∧
    t.filterMap Moment.tick? = List.range' 1 s.machine.tick ∧
    (∀ k ∈ t, k.KeepsTime c.pollPeriod) ∧
    ∀ (r : HostRequest) (code : List Value) (before after : List Moment) (m : Machine),
      r.code? = some code → r.moments s = before ++ after → Connected s.machine before m →
      m.StopDue →
      after.countP Moment.isPoll ≤ c.pollPeriod ∧
        (after.countP Moment.isPoll < m.countdown ∨ r.HaltsAt s m.countdown after) := by
  obtain ⟨htime, hall, hticks⟩ := h.onTime
  have hsound := h.sound
  have hconfig : ∀ k ∈ t, k.before.config = c := fun k hk => (hsound.depth_le k hk).1
  refine ⟨?_, hticks, fun k hk => ?_, fun r code before after m hcode hmoments hm hstop => ?_⟩
  · have hfacts : ∀ m : Machine, m.config = c → m.OnTime → 1 ≤ m.countdown ∧
        m.countdown ≤ c.pollPeriod ∧ m.countdown = c.pollPeriod - m.tick % c.pollPeriod := by
      rintro m rfl hm
      exact ⟨hm.countdown_pos, hm.countdown_le, hm⟩
    rintro m (rfl | ⟨k, hk, rfl | rfl⟩)
    · exact hfacts _ hsound.config htime
    · exact hfacts _ (hconfig k hk) (hall k hk).1
    · exact hfacts _ (k.after_config.trans (hconfig k hk)) (hall k hk).2
  · rw [← hconfig k hk]
    exact Moment.keepsTime (hall k hk).1
  · have hle : m.countdown ≤ c.pollPeriod := by
      rw [← hsound.config, ← hm.config]
      exact (hm.onTime htime).2.countdown_le
    have hends := r.halts hcode hmoments hm htime hstop
    refine ⟨?_, hends⟩
    rcases hends with hfew | hhalts
    · exact Nat.le_of_lt (Nat.lt_of_lt_of_le hfew hle)
    · rw [hhalts.polls]
      exact hle

/-- A loop inside a catch inside a trap. -/
def sheltered : HostRequest := .text "trap [catch [loop 3 [1]]]"

theorem sheltered_polls :
    (match Session.withRegistry { pollInterval := 2 } .standard false with
      | .ok s => decide (2 ≤ (sheltered.moments (s.setInterrupt true)).countP Moment.isPoll)
      | .error _ => false) = true := by
  rw [Registry.withRegistry_eq_unread Registry.standard_installable]
  decide +kernel

theorem exists_sheltered : ∃ s code,
    Session.withRegistry { pollInterval := 2 } .standard false = .ok s ∧
      sheltered.code? = some code ∧
      2 ≤ (sheltered.moments (s.setInterrupt true)).countP Moment.isPoll := by
  have h := sheltered_polls
  split at h
  · rename_i s hs
    have hpolls := of_decide_eq_true h
    cases hcode : sheltered.code? with
    | some code => exact ⟨s, code, hs, rfl, hpolls⟩
    | none =>
      rw [HostRequest.moments_idle hcode] at hpolls
      exact absurd hpolls (by simp)
  · cases h

theorem Lived.stops_in_time_sheltered :
    ∃ t s, Lived { pollInterval := 2 } t s ∧ s.machine.StopDue ∧
      (sheltered.moments s).countP Moment.isPoll ≤ 2 ∧
      sheltered.HaltsAt s s.machine.countdown (sheltered.moments s) := by
  obtain ⟨s, code, hs, hcode, hpolls⟩ := exists_sheltered
  have hlived := (Lived.start hs).serve (.setInterrupt true) trivial
  change Lived _ _ (s.setInterrupt true) at hlived
  have hstop : (s.setInterrupt true).machine.StopDue := .inl rfl
  generalize s.setInterrupt true = s' at hlived hpolls hstop
  obtain ⟨hclock, -, -, hstops⟩ := hlived.stops_in_time
  obtain ⟨hmost, hends⟩ := hstops sheltered code [] _ _ hcode (List.nil_append _).symm rfl hstop
  have hle : s'.machine.countdown ≤ 2 := (hclock _ (.inl rfl)).2.1
  exact ⟨_, s', hlived, hstop, hmost, hends.resolve_left (by omega)⟩

end Homoicon
