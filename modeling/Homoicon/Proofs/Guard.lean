import Homoicon.Proofs.Frames
import Homoicon.Proofs.Logic
import Homoicon.Proofs.Results

/-!
# Guarded runs

A guard watches a run until a moment at which it stops.  Up to then every fault is granted, every
operation that begins is ready, nothing gives up that may not, and if the guard never stops, the
result, the signal or the fault in which the run ends and the machine after it are good.
-/

namespace Homoicon

structure Guard (F : Facts) where
  /-- Moments after which nothing is claimed any more. -/
  stop : Moment → Prop
  patient : Prop
  maxDepth : Nat
  /-- Calls with which an operation may begin. -/
  ready : Native → CallState → Prop := fun _ _ => True
  refused : ∀ m : Machine, m.depth = maxDepth → stop (.refused m) ∨ F.overflow maxDepth
  whileTrue : ∀ n : Native, n.operation = .control .whileTrue →
    (∀ c m, stop (.asked (.mark (.operation n c)) m)) ∨ patient
  host : ∀ (n : Native) (op : HostOperation), F.native n → n.operation = .host op → patient

namespace Guard

variable {F : Facts} (G : Guard F)

def Fine : Moment → Prop
  | .faulted f _ => F.fault f
  | .gaveUp _ => G.patient
  | .asked (.mark (.operation n c)) _ => G.ready n c
  | _ => True

/-- A guard that lets every operation begin. -/
def Lenient : Prop := ∀ n c, G.ready n c

def Clean : List Moment → Prop
  | [] => True
  | k :: rest => G.Fine k ∧ (G.stop k ∨ Clean rest)

def Unstopped (t : List Moment) : Prop := ∀ k ∈ t, ¬G.stop k

def Allows {α : Type} (Q : α → Prop) : Outcome α → Prop
  | .done a => Q a
  | .thrown s => s.Good F
  | .failed f => F.fault f
  | .exhausted => G.patient

/-- A run from `m` is clean, and if the guard does not stop, it ends well. -/
def At {α : Type} (Q : α → Prop) (x : Eval α) (m : Machine) : Prop :=
  G.Clean (x.trace m) ∧
    (G.Unstopped (x.trace m) → G.Allows Q (x m).1 ∧ (x m).2.Good F)

/-- Machines on which code may run that nests at most `nesting` frames deep. -/
structure Fits (nesting : Nat) (m : Machine) : Prop where
  good : m.Good F
  config : m.config.maxDepth = G.maxDepth
  depth_le : m.depth ≤ G.maxDepth
  room : G.maxDepth ≤ nesting + m.depth

variable {G} {α β : Type} {P Q : α → Prop} {m : Machine} {t t' : List Moment}

theorem Unstopped.of_append (h : G.Unstopped (t ++ t')) : G.Unstopped t ∧ G.Unstopped t' :=
  ⟨fun k hk => h k (by simp [hk]), fun k hk => h k (by simp [hk])⟩

theorem Clean.append (h : G.Clean t) (h' : G.Unstopped t → G.Clean t') : G.Clean (t ++ t') := by
  induction t with
  | nil => exact h' (by simp [Unstopped])
  | cons k rest ih =>
    refine ⟨h.1, ?_⟩
    by_cases hk : G.stop k
    · exact .inl hk
    · refine .inr (ih (h.2.resolve_left hk) fun hrest => h' ?_)
      exact List.forall_mem_cons.2 ⟨hk, hrest⟩

/-- What a run leaves is again a machine on which code may run. -/
theorem Fits.run {nesting : Nat} (h : G.Fits nesting m) (x : Eval α) (hg : (x m).2.Good F) :
    G.Fits nesting (x m).2 := by
  have hconfig := (x.trace_connected m).config
  have hdepth : (x m).2.depth = m.depth := by rw [Machine.depth, x.run_stack m, Machine.depth]
  refine ⟨hg, by rw [hconfig, h.config], ?_, ?_⟩
  · rw [hdepth]
    exact h.depth_le
  · rw [hdepth]
    exact h.room

theorem Fits.of_run {nesting : Nat} {x : Eval α} {o : Outcome α} {m' : Machine}
    (h : G.Fits nesting m) (hr : x m = (o, m')) (hm' : m'.Good F) : G.Fits nesting m' := by
  have hx := h.run x (by rw [hr]; exact hm')
  rwa [hr] at hx

namespace At

theorem ret {a : α} (hm : m.Good F) (h : Q a) : G.At Q (pure a) m := ⟨trivial, fun _ => ⟨h, hm⟩⟩

theorem bind {Q : β → Prop} {x : Eval α} {f : α → Eval β} (hx : G.At P x m)
    (hf : ∀ a m', x m = (.done a, m') → P a → m'.Good F → G.At Q (f a) m') :
    G.At Q (x >>= f) m := by
  obtain ⟨hclean, hpost⟩ := hx
  unfold At
  rw [Eval.trace_bind, Eval.run_bind]
  rcases h : x m with ⟨a | s | e | _, m'⟩ <;> rw [h] at hpost
  · have hrest : G.Unstopped (x.trace m) → G.At Q (f a) m' := fun hu =>
      hf a m' h (hpost hu).1 (hpost hu).2
    refine ⟨hclean.append fun hu => (hrest hu).1, fun hu => ?_⟩
    exact (hrest hu.of_append.1).2 hu.of_append.2
  all_goals
    simp only [List.append_nil]
    exact ⟨hclean, hpost⟩

theorem mono {x : Eval α} (hx : G.At P x m) (h : ∀ a, P a → Q a) : G.At Q x m := by
  refine ⟨hx.1, fun hu => ?_⟩
  obtain ⟨hp, hm⟩ := hx.2 hu
  refine ⟨?_, hm⟩
  revert hp
  cases (x m).1 with
  | done a => exact h a
  | _ => exact id

theorem returns {x : Eval α} (hx : G.At P x m) (h : x.Returns Q) :
    G.At (fun a => P a ∧ Q a) x m := by
  refine ⟨hx.1, fun hu => ?_⟩
  obtain ⟨hp, hm⟩ := hx.2 hu
  refine ⟨?_, hm⟩
  rcases hr : x m with ⟨a | s | e | _, m'⟩ <;> rw [hr] at hp
  · exact ⟨hp, h m a m' hr⟩
  all_goals exact hp

theorem fail {f : Fault} (hm : m.Good F) (h : F.fault f) : G.At Q (.fail f) m :=
  ⟨⟨h, .inr trivial⟩, fun _ => ⟨h, hm⟩⟩

theorem signal {s : Signal} (hm : m.Good F) (h : s.Good F) : G.At Q (.signal s) m :=
  ⟨⟨trivial, .inr trivial⟩, fun _ => ⟨h, hm⟩⟩

theorem exhaust (hm : m.Good F) (h : G.patient) : G.At Q .exhaust m :=
  ⟨⟨h, .inr trivial⟩, fun _ => ⟨h, hm⟩⟩

theorem command (c : Command β) (hm : m.Good F) (h : c.Accepts F) (hfine : G.Fine (.asked c m)) :
    G.At (fun b => c.Yields F b ∧ b = (c.run m).1) (Eval.command c) m :=
  ⟨⟨hfine, .inr trivial⟩, fun _ => ⟨⟨(c.run_good hm h).1, rfl⟩, (c.run_good hm h).2⟩⟩

theorem catchSignal {x : Eval α} (hx : G.At Q x m) :
    G.At (fun r => match r with | .ok a => Q a | .error s => s.Good F) x.catchSignal m := by
  obtain ⟨hclean, hpost⟩ := hx
  unfold At Eval.catchSignal
  simp only [Eval.trace, Eval.run]
  rcases h : x.run m with ⟨a | s | e | _, m'⟩ <;> rw [h] at hpost <;>
    simp only [List.append_nil] <;> exact ⟨hclean, hpost⟩

theorem catchFault {x : Eval α} (hx : G.At Q x m) : G.At (F.Caught Q) x.catchFault m := by
  obtain ⟨hclean, hpost⟩ := hx
  unfold At Eval.catchFault
  simp only [Eval.trace, Eval.run]
  rcases h : x.run m with ⟨a | s | e | _, m'⟩ <;> rw [h] at hpost <;>
    simp only [List.append_nil] <;> exact ⟨hclean, hpost⟩

theorem inFrame {nesting : Nat} {label : Option String} {body : FrameId → Eval α}
    (h : G.Fits nesting m)
    (hbody : m.depth < G.maxDepth → G.At Q (body m.nextFrame) (m.enter label)) :
    G.At Q (.inFrame label body .done) m := by
  unfold At
  simp only [Eval.trace, Eval.run, h.config]
  by_cases hroom : G.maxDepth ≤ m.depth
  · have hdepth : m.depth = G.maxDepth := Nat.le_antisymm h.depth_le hroom
    simp only [hroom, if_true]
    refine ⟨⟨trivial, .inr trivial⟩, fun hu => ⟨?_, h.good⟩⟩
    have hover := (G.refused m hdepth).resolve_left (hu _ (by simp))
    intro n hn
    cases hn
    exact hdepth ▸ hover
  · obtain ⟨hclean, hpost⟩ := hbody (Nat.lt_of_not_le hroom)
    simp only [hroom, if_false]
    have hleave : ∀ m' : Machine, m'.Good F → (m'.leave m.nextFrame).Good F := fun m' hm' =>
      ⟨hm'.scopes, hm'.feeds, hm'.snapshots⟩
    have hall : ∀ {t : List Moment} (m' : Machine),
        G.Unstopped (.entered label m :: t ++ [.left m.nextFrame m']) → G.Unstopped t := by
      intro t m' hu k hk
      exact hu k (by simp [hk])
    rcases hb : (body m.nextFrame).run (m.enter label) with ⟨a | s | e | _, m'⟩ <;> rw [hb] at hpost
    all_goals
      refine ⟨⟨trivial, .inr (hclean.append fun _ => ⟨trivial, .inr trivial⟩)⟩, fun hu => ?_⟩
      obtain ⟨hq, hm'⟩ := hpost (hall m' hu)
      refine ⟨?_, hleave m' hm'⟩
    · exact hq
    · exact hq
    · cases label with
      | none => exact hq
      | some l => exact F.fault_inCall hq
    · exact hq

theorem handle {taker : Taker} {x : Eval α} {take : Signal → Eval α} (hx : G.At Q x m)
    (htake : ∀ s m', s.Good F → taker.takes s = true → x m = (.thrown s, m') → m'.Good F →
      G.At Q (take s) m') : G.At Q (x.handle taker take) m := by
  refine bind hx.catchSignal fun r m' hr hq hm' => ?_
  rcases Eval.catchSignal_eq_done hr with ⟨a, rfl, -⟩ | ⟨s, rfl, hthrown⟩
  · exact ret hm' hq
  · dsimp only
    split
    · exact bind (command (.mark (.taken taker s)) hm' trivial trivial) fun _ m'' hr _ _ => by
        cases hr
        exact htake s m' hq ‹_› hthrown hm'
    · exact signal hm' hq

end At

theorem fine_of_plain {c : Command β} (plain : c.IsPlain) (m : Machine) : G.Fine (.asked c m) := by
  cases c with
  | mark k => cases plain
  | _ => trivial

def logic (G : Guard F) (nesting : Nat) : Logic F where
  Holds _ Q x := ∀ m, G.Fits nesting m → G.At Q x m
  exempt n := ∀ c m, G.stop (.asked (.mark (.operation n c)) m)
  patient := G.patient
  ret h := fun m hm => .ret hm.good h
  bind hx hf := fun m hm => (hx m hm).bind fun a m' hr ha hm' => hf a ha m' (hm.of_run hr hm')
  fail h := fun m hm => .fail hm.good h
  signal h := fun m hm => .signal hm.good h
  exhaust h := fun m hm => .exhaust hm.good h
  ask c plain h := fun m hm =>
    (At.command c hm.good h (fine_of_plain plain m)).mono fun _ hb => hb.1
  handle _ hx htake := fun m hm => (hx m hm).handle fun s m' hs ht hr hm' =>
    htake s hs ht m' (hm.of_run hr hm')
  catchFault hx := fun m hm => (hx m hm).catchFault
  inFrame h := fun m hm => .inFrame hm fun hroom => h _ _ (by
    refine ⟨⟨hm.good.scopes, hm.good.feeds, hm.good.snapshots⟩, hm.config, hroom, ?_⟩
    exact Nat.le_trans hm.room (Nat.add_le_add_left (Nat.le_succ _) _))
  whileTrue := G.whileTrue
  host := G.host

/-- An operation that is ready may begin; of one that is exempt nothing more is claimed. -/
theorem begins (nesting : Nat) {n : Native} {c : CallState} (hready : G.ready n c) :
    (G.logic nesting).Begins n c := by
  constructor
  intro α cur Q x h m hm
  by_cases hn : ∀ c m, G.stop (.asked (.mark (.operation n c)) m)
  · refine ⟨⟨hready, .inl (hn c m)⟩, fun hu => absurd (hn c m) (hu _ ?_)⟩
    rw [Eval.trace_bind]
    simp
  · refine At.bind (At.command (.mark _) hm.good trivial hready) fun _ m' hr _ _ => ?_
    cases hr
    exact h hn m hm

theorem at_of_holds {nesting : Nat} {x : Eval α} (hm : G.Fits nesting m)
    (h : (G.logic nesting).Holds {} Q x) : G.At Q x m :=
  h m hm

end Guard

end Homoicon
