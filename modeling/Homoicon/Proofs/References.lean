import Mathlib.Data.Set.Basic
import Homoicon.Evaluate.Step

/-!
# What values refer to

Scopes, feeds and frames are shared, and values refer to them by number: an action to the scope in
which its code runs, a varargs to its feed, a frame to its arguments.  `Value.handles` lists all that
a value refers to, however deep inside.  A region is a set of handles; a value lies within a region
if it refers to nothing else.
-/

namespace Homoicon

/-- Something shared that values refer to by its number. -/
inductive Handle where
  | scope (s : ScopeId)
  | feed (f : FeedId)
  | frame (id : FrameId)
  deriving DecidableEq

abbrev Region := Set Handle

def Varargs.handles (v : Varargs) : List Handle :=
  .feed v.feed :: v.frame.toList.map fun f => .frame f.id

mutual

/-- Everything that a value refers to. -/
def Value.handles : Value → List Handle
  | .block items | .group items | .path items | .setPath items | .getPath items =>
    Value.handlesAll items
  | .sym payload | .quoted payload => payload.handles
  | .action _ a => a.handles
  | .varargs _ v => v.handles
  | .frame f => [.frame f.id]
  | _ => []

def Value.handlesAll : List Value → List Handle
  | [] => []
  | v :: rest => v.handles ++ Value.handlesAll rest

def Action.handles : Action → List Handle
  | .mk _ _ _ dispatcher exemplar _ _ _ => dispatcher.handles ++ Value.handlesOfExemplar exemplar

def Dispatcher.handles : Dispatcher → List Handle
  | .interpreted body scope => .scope scope :: Value.handlesAll body
  | .adapted prelude scope adaptee => .scope scope :: (Value.handlesAll prelude ++ adaptee.handles)
  | .native _ | .returnTo _ => []

def Value.handlesOfExemplar : Option (List (Option Value)) → List Handle
  | none => []
  | some slots => Value.handlesOfSlots slots

def Value.handlesOfSlots : List (Option Value) → List Handle
  | [] => []
  | slot :: rest => Value.handlesMaybe slot ++ Value.handlesOfSlots rest

def Value.handlesMaybe : Option Value → List Handle
  | none => []
  | some v => v.handles

end

variable {R S : Region}

/-! ### Values within a region -/

def Value.Within (R : Region) (v : Value) : Prop := ∀ h ∈ v.handles, h ∈ R

def Action.Within (R : Region) (a : Action) : Prop := ∀ h ∈ a.handles, h ∈ R

def Dispatcher.Within (R : Region) (d : Dispatcher) : Prop := ∀ h ∈ d.handles, h ∈ R

namespace Value

def AllWithin (R : Region) (items : List Value) : Prop := ∀ v ∈ items, v.Within R

def MaybeWithin (R : Region) (o : Option Value) : Prop := ∀ v ∈ o, v.Within R

theorem mem_handlesAll {items : List Value} {h : Handle} :
    h ∈ handlesAll items ↔ ∃ v ∈ items, h ∈ v.handles := by
  induction items with
  | nil => simp [handlesAll]
  | cons v rest ih => simp [handlesAll, ih]

theorem mem_handlesOfSlots {slots : List (Option Value)} {h : Handle} :
    h ∈ handlesOfSlots slots ↔ ∃ v, some v ∈ slots ∧ h ∈ v.handles := by
  induction slots with
  | nil => simp [handlesOfSlots]
  | cons slot rest ih =>
    cases slot with
    | none => simp [handlesOfSlots, handlesMaybe, ih]
    | some w => simp [handlesOfSlots, handlesMaybe, ih]

theorem allWithin_iff {items : List Value} :
    (∀ h ∈ handlesAll items, h ∈ R) ↔ AllWithin R items := by
  simp only [AllWithin, Within, mem_handlesAll]
  exact ⟨fun hall v hv h hh => hall h ⟨v, hv, hh⟩, fun hall h ⟨v, hv, hh⟩ => hall v hv h hh⟩

@[simp] theorem within_block {items : List Value} :
    (block items).Within R ↔ AllWithin R items := allWithin_iff

@[simp] theorem within_group {items : List Value} :
    (group items).Within R ↔ AllWithin R items := allWithin_iff

@[simp] theorem within_path {items : List Value} :
    (path items).Within R ↔ AllWithin R items := allWithin_iff

@[simp] theorem within_setPath {items : List Value} :
    (setPath items).Within R ↔ AllWithin R items := allWithin_iff

@[simp] theorem within_getPath {items : List Value} :
    (getPath items).Within R ↔ AllWithin R items := allWithin_iff

@[simp] theorem within_sym {v : Value} : (sym v).Within R ↔ v.Within R := Iff.rfl

@[simp] theorem within_quoted {v : Value} : (quoted v).Within R ↔ v.Within R := Iff.rfl

@[simp] theorem within_action {id : Identity} {a : Action} :
    (action id a).Within R ↔ a.Within R := Iff.rfl

theorem within_varargs {id : Identity} {v : Varargs} :
    (varargs id v).Within R ↔ .feed v.feed ∈ R ∧ ∀ f ∈ v.frame, .frame f.id ∈ R := by
  cases hf : v.frame <;> simp [Within, handles, Varargs.handles, hf]

theorem within_frame {f : FrameRef} : (frame f).Within R ↔ .frame f.id ∈ R := by
  simp [Within, handles]

theorem Within.of_nil {v : Value} (h : v.handles = []) : v.Within R := by
  intro h' hmem
  rw [h] at hmem
  cases hmem

@[simp] theorem within_null : null.Within R := .of_nil rfl

@[simp] theorem within_void : void.Within R := .of_nil rfl

@[simp] theorem within_logic {b : Bool} : (logic b).Within R := .of_nil rfl

@[simp] theorem within_refinement {name : String} : (refinement name).Within R := .of_nil rfl

@[simp] theorem within_text {s : String} : (text s).Within R := .of_nil rfl

theorem Within.mono {v : Value} (h : v.Within R) (hRS : R ⊆ S) : v.Within S :=
  fun n hn => hRS (h n hn)

theorem Within.quotedIfNeeded {v : Value} (h : v.Within R) : v.quotedIfNeeded.Within R := by
  unfold Value.quotedIfNeeded
  split
  · exact h
  · exact within_quoted.2 h

namespace AllWithin

variable {items : List Value}

theorem nil : AllWithin R [] := by
  intro v hv
  cases hv

theorem mono (h : AllWithin R items) (hRS : R ⊆ S) : AllWithin S items :=
  fun v hv => (h v hv).mono hRS

theorem head {v : Value} (h : AllWithin R (v :: items)) : v.Within R := h v (by simp)

theorem tail {v : Value} (h : AllWithin R (v :: items)) : AllWithin R items :=
  fun w hw => h w (by simp [hw])

theorem cons {v : Value} (hv : v.Within R) (h : AllWithin R items) : AllWithin R (v :: items) :=
  List.forall_mem_cons.2 ⟨hv, h⟩

theorem get? (h : AllWithin R items) (i : Nat) : MaybeWithin R items[i]? :=
  fun v hv => h v (List.mem_of_getElem? hv)

theorem set (h : AllWithin R items) (i : Nat) {v : Value} (hv : v.Within R) :
    AllWithin R (items.set i v) := by
  intro w hw
  rcases List.mem_or_eq_of_mem_set hw with hw | rfl
  · exact h w hw
  · exact hv

theorem reverse (h : AllWithin R items) : AllWithin R items.reverse :=
  fun v hv => h v (List.mem_reverse.1 hv)

end AllWithin

namespace MaybeWithin

variable {o o' : Option Value}

theorem none : MaybeWithin R none := by
  intro v hv
  cases hv

theorem some {v : Value} (h : v.Within R) : MaybeWithin R (some v) := by
  rintro w ⟨⟩
  exact h

theorem mono (h : MaybeWithin R o) (hRS : R ⊆ S) : MaybeWithin S o :=
  fun v hv => (h v hv).mono hRS

theorem getD {v : Value} (h : MaybeWithin R o) (hv : v.Within R) : (o.getD v).Within R := by
  cases o with
  | none => exact hv
  | some w => exact h w rfl

theorem or (h : MaybeWithin R o) (h' : MaybeWithin R o') : MaybeWithin R (o.or o') := by
  cases o with
  | none => exact h'
  | some w => exact h

end MaybeWithin

end Value

/-! ### Actions within a region -/

theorem Dispatcher.within_interpreted {body : List Value} {scope : ScopeId} :
    (Dispatcher.interpreted body scope).Within R ↔
      .scope scope ∈ R ∧ Value.AllWithin R body := by
  rw [Dispatcher.Within, Dispatcher.handles, List.forall_mem_cons, Value.allWithin_iff]

theorem Dispatcher.within_adapted {prelude : List Value} {scope : ScopeId} {adaptee : Action} :
    (Dispatcher.adapted prelude scope adaptee).Within R ↔
      .scope scope ∈ R ∧ Value.AllWithin R prelude ∧ adaptee.Within R := by
  rw [Dispatcher.Within, Dispatcher.handles, List.forall_mem_cons, List.forall_mem_append,
    Value.allWithin_iff]
  rfl

namespace Action

theorem within_iff {a : Action} : a.Within R ↔
    a.dispatcher.Within R ∧ ∀ slots v, a.exemplar = some slots → some v ∈ slots → v.Within R := by
  obtain ⟨_, _, _, dispatcher, exemplar, _, _, _⟩ := a
  rw [Within, handles, List.forall_mem_append]
  refine and_congr Iff.rfl ?_
  cases exemplar with
  | none => simp [Value.handlesOfExemplar]
  | some slots =>
    simp only [Value.handlesOfExemplar, Value.mem_handlesOfSlots, Value.Within, Option.some.injEq]
    constructor
    · rintro hall slots v rfl hv h hh
      exact hall h ⟨v, hv, hh⟩
    · rintro hall h ⟨v, hv, hh⟩
      exact hall slots v rfl hv h hh

theorem Within.mono {a : Action} (h : a.Within R) (hRS : R ⊆ S) : a.Within S :=
  fun n hn => hRS (h n hn)

theorem Within.preset {a : Action} (h : a.Within R) (i : Nat) :
    Value.MaybeWithin R (a.preset? i) := by
  intro v hv
  obtain ⟨slots, hslots, hv⟩ := Option.bind_eq_some_iff.1 hv
  have hmem : some v ∈ slots := List.mem_of_getElem? (Option.join_eq_some_iff.1 hv)
  exact (within_iff.1 h).2 slots v hslots hmem

/-- Neither the parameters nor the spelling of an action matter. -/
theorem Within.congr {a b : Action} (h : a.Within R) (hd : b.dispatcher = a.dispatcher)
    (he : b.exemplar = a.exemplar) : b.Within R := by
  rw [within_iff, hd, he]
  exact within_iff.1 h

theorem Within.enfixWith {a b : Action} {deferral : Deferral}
    (h : a.Within R) (hb : a.enfixWith deferral = .ok b) : b.Within R := by
  unfold Action.enfixWith at hb
  split at hb
  · cases hb
    exact h.congr rfl rfl
  · cases hb

theorem Within.specialized {a : Action} {slots : List (Option Value)} (h : a.Within R)
    (hs : ∀ slot ∈ slots, Value.MaybeWithin R slot) : (a.specialized slots).Within R := by
  refine within_iff.2 ⟨(within_iff.1 h).1, ?_⟩
  rintro _ v ⟨⟩ hv
  obtain ⟨⟨slot, i⟩, hslot, hor⟩ := List.mem_map.1 hv
  have hmaybe := (hs slot (List.fst_mem_of_mem_zipIdx hslot)).or (h.preset i)
  exact hmaybe v hor

end Action

end Homoicon
