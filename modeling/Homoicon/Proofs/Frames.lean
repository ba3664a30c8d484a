import Homoicon.Evaluate.Step
import Homoicon.Proofs.Trace

/-!
# Frames over a run

What follows for frames from the moments of a run: the configuration stays, the number of live
frames never exceeds what is allowed, and the frames that are entered get consecutive numbers, so no
two of them share one.
-/

namespace Homoicon

theorem Connected.invariant {P : Machine → Prop}
    (step : ∀ k : Moment, k.Possible → P k.before → P k.after) {m m' : Machine} {t : List Moment}
    (h : Connected m t m') (hm : P m) : (∀ k ∈ t, P k.before ∧ P k.after) ∧ P m' := by
  induction t generalizing m with
  | nil =>
    obtain rfl := h
    exact ⟨by simp, hm⟩
  | cons k rest ih =>
    obtain ⟨rfl, hk, hrest⟩ := h
    have hafter := step k hk hm
    obtain ⟨hall, hlast⟩ := ih hrest hafter
    exact ⟨List.forall_mem_cons.2 ⟨⟨hm, hafter⟩, hall⟩, hlast⟩

namespace Moment

theorem after_config (k : Moment) : k.after.config = k.before.config := by
  cases k with
  | asked c m => exact (c.run_frames m).2.1
  | _ => rfl

theorem after_nextFrame (k : Moment) :
    k.after.nextFrame = k.before.nextFrame + k.entered?.toList.length := by
  cases k with
  | asked c m => exact (c.run_frames m).2.2
  | _ => rfl

theorem depth_after_le {k : Moment} (hk : k.Possible)
    (h : k.before.depth ≤ k.before.config.maxDepth) : k.after.depth ≤ k.after.config.maxDepth := by
  rw [after_config]
  cases k with
  | asked c m =>
    rw [Machine.depth, after, (c.run_frames m).1]
    exact h
  | entered label m => exact hk
  | left id m =>
    obtain ⟨label, rest, hs⟩ := hk
    rw [Machine.depth, after, Machine.stack_leave hs]
    simp only [before, Machine.depth, hs, List.length_cons] at h
    exact Nat.le_of_succ_le h
  | _ => exact h

end Moment

namespace Connected

variable {m m' : Machine} {t : List Moment}

theorem config (h : Connected m t m') : m'.config = m.config :=
  (h.invariant (P := fun n => n.config = m.config) (fun k _ hk => k.after_config.trans hk) rfl).2

theorem possible (h : Connected m t m') : ∀ k ∈ t, k.Possible := by
  induction t generalizing m with
  | nil => simp
  | cons k rest ih => exact List.forall_mem_cons.2 ⟨h.2.1, ih h.2.2⟩

theorem depth_le (h : Connected m t m') (hm : m.depth ≤ m.config.maxDepth) :
    ∀ k ∈ t, k.before.config = m.config ∧ k.before.depth ≤ m.config.maxDepth ∧
      k.after.depth ≤ m.config.maxDepth := by
  intro k hk
  have hdepth := (h.invariant (P := fun n => n.depth ≤ n.config.maxDepth)
    (fun _ hk hb => Moment.depth_after_le hk hb) hm).1 k hk
  have hconfig := (h.invariant (P := fun n => n.config = m.config)
    (fun k _ hk => k.after_config.trans hk) rfl).1 k hk
  rw [hconfig.1, hconfig.2] at hdepth
  exact ⟨hconfig.1, hdepth⟩

theorem entered (h : Connected m t m') :
    m'.nextFrame = m.nextFrame + (t.filterMap Moment.entered?).length ∧
      t.filterMap Moment.entered? =
        List.range' m.nextFrame (t.filterMap Moment.entered?).length := by
  induction t generalizing m with
  | nil =>
    obtain rfl := h
    exact ⟨rfl, rfl⟩
  | cons k rest ih =>
    obtain ⟨rfl, -, hrest⟩ := h
    obtain ⟨hnext, hids⟩ := ih hrest
    have hk := k.after_nextFrame
    cases hid : k.entered? with
    | none =>
      rw [hid] at hk
      rw [List.filterMap_cons_none hid, ← show k.after.nextFrame = k.before.nextFrame from hk]
      exact ⟨hnext, hids⟩
    | some id =>
      have hself : id = k.before.nextFrame := by
        cases k with
        | entered label m => exact (Option.some.inj hid).symm
        | _ => cases hid
      rw [hid] at hk
      rw [List.filterMap_cons_some hid, List.length_cons, List.range'_succ, hself]
      refine ⟨?_, ?_⟩
      · rw [hnext, hk, Nat.add_assoc, Nat.add_comm (some id).toList.length]
        rfl
      · rw [List.cons.injEq]
        refine ⟨rfl, ?_⟩
        rw [hk] at hids
        exact hids

end Connected

/-! ### Entering -/

section

variable {α : Type} {m : Machine} (feed : FeedId) (label : Option String) (body : Frame → Eval α)

theorem withFrame_refused (h : m.config.maxDepth ≤ m.depth) :
    withFrame feed label body m = (.failed (.of (.stackOverflow m.depth)), m) ∧
      (withFrame feed label body).trace m = [.refused m] := by
  simp only [withFrame, Eval.run, Eval.trace, h, if_true, and_self]

theorem withFrame_entered (h : m.depth < m.config.maxDepth) :
    (withFrame feed label body).trace m =
      .entered label m :: (body { id := m.nextFrame, feed }).trace (m.enter label) ++
        [.left m.nextFrame (body { id := m.nextFrame, feed } (m.enter label)).2] := by
  simp only [withFrame, Eval.trace, if_neg (Nat.not_le.2 h)]
  rcases (body { id := m.nextFrame, feed }).run (m.enter label) with ⟨_ | _ | _ | _, m'⟩ <;> rfl

end

end Homoicon
