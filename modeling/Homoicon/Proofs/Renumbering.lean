import Mathlib.Data.List.Forall2
import Mathlib.Order.Monotone.Basic
import Homoicon.CallState
import Homoicon.Eval
import Homoicon.Signal

/-!
# Other numbers for the same things

The numbers of frames, and of values that are equal only to themselves, are handed out one after the
other.  A run that enters more frames on its way hands out other numbers for the same things.  A
renumbering says which; two values match under it if they differ in nothing but these numbers.  A
frame shows its number when it is molded, so texts that quote values match up to numbers too.
-/

namespace Homoicon

/-- The numbers that frames and identities have in another run, where they come in the same order. -/
structure Renumbering where
  frame : Nat → Nat
  identity : Nat → Nat
  frame_lt : StrictMono frame
  identity_lt : StrictMono identity

namespace Renumbering

theorem frame_injective (ρ : Renumbering) : Function.Injective ρ.frame := ρ.frame_lt.injective

theorem identity_injective (ρ : Renumbering) : Function.Injective ρ.identity :=
  ρ.identity_lt.injective

/-- Texts that are put together alike, from the same parts and from numbers of frames. -/
inductive Alike (ρ : Renumbering) : String → String → Prop
  | refl (s : String) : Alike ρ s s
  | append {s s' t t' : String} : Alike ρ s s' → Alike ρ t t' → Alike ρ (s ++ t) (s' ++ t')
  | number (id : FrameId) : Alike ρ (Nat.repr id) (Nat.repr (ρ.frame id))

def frameRef (ρ : Renumbering) (f : FrameRef) : FrameRef := { f with id := ρ.frame f.id }

end Renumbering

structure Fault.Matches (ρ : Renumbering) (f f' : Fault) : Prop where
  cause : ρ.Alike f.cause.message f'.cause.message
  near : Option.Rel ρ.Alike f.near f'.near
  label : f'.label = f.label

mutual

/-- Values that differ in numbers only. -/
inductive Value.Matches (ρ : Renumbering) : Value → Value → Prop
  | null : Value.Matches ρ .null .null
  | void : Value.Matches ρ .void .void
  | blank : Value.Matches ρ .blank .blank
  | logic (b : Bool) : Value.Matches ρ (.logic b) (.logic b)
  | integer (n : Int64) : Value.Matches ρ (.integer n) (.integer n)
  | decimal (x : Float) : Value.Matches ρ (.decimal x) (.decimal x)
  | text (s : String) : Value.Matches ρ (.text s) (.text s)
  | tag (s : String) : Value.Matches ρ (.tag s) (.tag s)
  | refinement (name : String) : Value.Matches ρ (.refinement name) (.refinement name)
  | block {items items' : List Value} (h : List.Forall₂ (Value.Matches ρ) items items') :
    Value.Matches ρ (.block items) (.block items')
  | datatype (k : Kind) : Value.Matches ρ (.datatype k) (.datatype k)
  | action (id : Identity) {a a' : Action} (h : Action.Matches ρ a a') :
    Value.Matches ρ (.action id a) (.action (ρ.identity id) a')
  | varargs (id : Identity) (v : Varargs) :
    Value.Matches ρ (.varargs id v)
      (.varargs (ρ.identity id) { v with frame := v.frame.map ρ.frameRef })
  | frame (f : FrameRef) : Value.Matches ρ (.frame f) (.frame (ρ.frameRef f))
  | error (id : Identity) {f f' : Fault} (h : f.Matches ρ f') :
    Value.Matches ρ (.error id f) (.error (ρ.identity id) f')
  | word (name : String) : Value.Matches ρ (.word name) (.word name)
  | setWord (name : String) : Value.Matches ρ (.setWord name) (.setWord name)
  | getWord (name : String) : Value.Matches ρ (.getWord name) (.getWord name)
  | sym {v v' : Value} (h : Value.Matches ρ v v') : Value.Matches ρ (.sym v) (.sym v')
  | quoted {v v' : Value} (h : Value.Matches ρ v v') : Value.Matches ρ (.quoted v) (.quoted v')
  | path {items items' : List Value} (h : List.Forall₂ (Value.Matches ρ) items items') :
    Value.Matches ρ (.path items) (.path items')
  | setPath {items items' : List Value} (h : List.Forall₂ (Value.Matches ρ) items items') :
    Value.Matches ρ (.setPath items) (.setPath items')
  | getPath {items items' : List Value} (h : List.Forall₂ (Value.Matches ρ) items items') :
    Value.Matches ρ (.getPath items) (.getPath items')
  | group {items items' : List Value} (h : List.Forall₂ (Value.Matches ρ) items items') :
    Value.Matches ρ (.group items) (.group items')
  | comma : Value.Matches ρ .comma .comma

inductive Action.Matches (ρ : Renumbering) : Action → Action → Prop
  | mk (label : Option String) (params : List Param) (signature : Identity)
    {d d' : Dispatcher} (dispatcher : Dispatcher.Matches ρ d d')
    {e e' : Option (List (Option Value))}
    (exemplar : Option.Rel (List.Forall₂ (Option.Rel (Value.Matches ρ))) e e')
    (enfixed : Bool) (deferral : Deferral) (description : Option String) :
    Action.Matches ρ ⟨label, params, signature, d, e, enfixed, deferral, description⟩
      ⟨label, params, ρ.identity signature, d', e', enfixed, deferral, description⟩

inductive Dispatcher.Matches (ρ : Renumbering) : Dispatcher → Dispatcher → Prop
  | native (n : Native) : Dispatcher.Matches ρ (.native n) (.native n)
  | interpreted {body body' : List Value} (h : List.Forall₂ (Value.Matches ρ) body body')
    (scope : ScopeId) : Dispatcher.Matches ρ (.interpreted body scope) (.interpreted body' scope)
  | adapted {prelude prelude' : List Value} {a a' : Action}
    (h : List.Forall₂ (Value.Matches ρ) prelude prelude') (scope : ScopeId)
    (ha : Action.Matches ρ a a') :
    Dispatcher.Matches ρ (.adapted prelude scope a) (.adapted prelude' scope a')
  | returnTo (target : FrameId) : Dispatcher.Matches ρ (.returnTo target) (.returnTo (ρ.frame target))

end

variable {ρ : Renumbering}

abbrev Value.AllMatch (ρ : Renumbering) : List Value → List Value → Prop :=
  List.Forall₂ (Value.Matches ρ)

abbrev Value.MaybeMatch (ρ : Renumbering) : Option Value → Option Value → Prop :=
  Option.Rel (Value.Matches ρ)

/-! ### Lists and options -/

section

variable {α β γ δ : Type} {R : α → β → Prop} {S : γ → δ → Prop}

theorem rel_getD {o : Option α} {o' : Option β} {a : α} {b : β} (h : Option.Rel R o o')
    (hab : R a b) : R (o.getD a) (o'.getD b) := by
  cases h with
  | none => exact hab
  | some h => exact h

theorem rel_or {o p : Option α} {o' p' : Option β} (h : Option.Rel R o o')
    (h' : Option.Rel R p p') : Option.Rel R (o.or p) (o'.or p') := by
  cases h with
  | none => exact h'
  | some h => exact .some h

theorem rel_map {f : α → γ} {g : β → δ} {o : Option α} {o' : Option β} (h : Option.Rel R o o')
    (hf : ∀ a b, R a b → S (f a) (g b)) : Option.Rel S (o.map f) (o'.map g) := by
  cases h with
  | none => exact .none
  | some h => exact .some (hf _ _ h)

theorem rel_same {R : α → α → Prop} (hR : ∀ a, R a a) (o : Option α) : Option.Rel R o o := by
  cases o with
  | none => exact .none
  | some a => exact .some (hR a)

theorem rel_join {o : Option (Option α)} {o' : Option (Option β)}
    (h : Option.Rel (Option.Rel R) o o') : Option.Rel R o.join o'.join := by
  cases h with
  | none => exact .none
  | some h => exact h

theorem rel_isSome {o : Option α} {o' : Option β} (h : Option.Rel R o o') :
    o'.isSome = o.isSome := by
  cases h <;> rfl

theorem rel_getElem? {l : List α} {l' : List β} (h : List.Forall₂ R l l') (i : Nat) :
    Option.Rel R l[i]? l'[i]? := by
  induction h generalizing i with
  | nil => exact .none
  | cons h _ ih =>
    cases i with
    | zero => exact .some h
    | succ i => exact ih i

theorem rel_set {l : List α} {l' : List β} (h : List.Forall₂ R l l') (i : Nat) {a : α} {b : β}
    (hab : R a b) : List.Forall₂ R (l.set i a) (l'.set i b) := by
  induction h generalizing i with
  | nil => exact .nil
  | cons h hs ih =>
    cases i with
    | zero => exact .cons hab hs
    | succ i => exact .cons h (ih i)

theorem rel_zipIdx {l : List α} {l' : List β} (h : List.Forall₂ R l l') (k : Nat) :
    List.Forall₂ (fun e e' => R e.1 e'.1 ∧ e'.2 = e.2) (l.zipIdx k) (l'.zipIdx k) := by
  induction h generalizing k with
  | nil => exact .nil
  | cons h _ ih => exact .cons ⟨h, rfl⟩ (ih (k + 1))

theorem rel_zip {l : List γ} {m : List α} {m' : List β} (h : List.Forall₂ R m m') :
    List.Forall₂ (fun e e' => e'.1 = e.1 ∧ R e.2 e'.2) (l.zip m) (l.zip m') := by
  induction l generalizing m m' with
  | nil => exact .nil
  | cons c l ih =>
    cases h with
    | nil => exact .nil
    | cons h hs => exact .cons ⟨rfl, h⟩ (ih hs)

end

/-! ### Texts -/

namespace Renumbering.Alike

variable {s s' t t' : String}

theorem intercalate {l l' : List String} (h : List.Forall₂ ρ.Alike l l') (sep : String) :
    ρ.Alike (String.intercalate sep l) (String.intercalate sep l') := by
  induction h with
  | nil => exact .refl _
  | cons hs hrest ih =>
    cases hrest with
    | nil =>
      rw [String.intercalate_singleton, String.intercalate_singleton]
      exact hs
    | cons _ _ =>
      rw [String.intercalate_cons_cons, String.intercalate_cons_cons]
      exact (hs.append (.refl sep)).append ih

end Renumbering.Alike

namespace Fault.Matches

variable {f f' : Fault}

theorem refl (f : Fault) : f.Matches ρ f := by
  refine ⟨.refl _, ?_, rfl⟩
  cases f.near with
  | none => exact .none
  | some unit => exact .some (.refl _)

theorem of {c c' : Cause} (h : ρ.Alike c.message c'.message) :
    (Fault.of c).Matches ρ (Fault.of c') := ⟨h, .none, rfl⟩

theorem nearUnit (h : f.Matches ρ f') {unit unit' : String} (hunit : ρ.Alike unit unit') :
    (f.nearUnit unit).Matches ρ (f'.nearUnit unit') := by
  obtain ⟨hcause, hnear, hlabel⟩ := h
  unfold Fault.nearUnit
  generalize hn : f.near = near, hn' : f'.near = near' at hnear
  cases hnear with
  | none => exact ⟨hcause, .some hunit, hlabel⟩
  | some hold => exact ⟨hcause, by rw [hn, hn']; exact .some hold, hlabel⟩

theorem inCall (h : f.Matches ρ f') (label : String) :
    (f.inCall label).Matches ρ (f'.inCall label) := by
  unfold Fault.inCall
  rw [h.label]
  cases f.label with
  | none => exact ⟨h.cause, h.near, rfl⟩
  | some _ => exact h

theorem inCall? (h : f.Matches ρ f') (label : Option String) :
    (f.inCall? label).Matches ρ (f'.inCall? label) := by
  cases label with
  | none => exact h
  | some l => exact h.inCall l

theorem message (h : f.Matches ρ f') : ρ.Alike f.message f'.message := by
  have hnear := h.near
  unfold Fault.message
  rw [h.label]
  refine .append (.append h.cause ?_) (.refl _)
  generalize f.near = near, f'.near = near' at hnear
  cases hnear with
  | none => exact .refl _
  | some hunit => exact .append (.append (.refl _) hunit) (.refl _)

end Fault.Matches

/-! ### Values -/

namespace Value.Matches

variable {v v' w w' : Value}

theorem kind (h : v.Matches ρ v') : v'.kind = v.kind := by cases h <;> rfl

theorem isNull (h : v.Matches ρ v') : v'.isNull = v.isNull := by cases h <;> rfl

theorem isTruthy (h : v.Matches ρ v') : v'.isTruthy = v.isTruthy := by cases h <;> rfl

theorem isInert (h : v.Matches ρ v') : v'.isInert = v.isInert := congrArg Kind.isInert h.kind

theorem wordName? (h : v.Matches ρ v') : v'.wordName? = v.wordName? := by cases h <;> rfl

theorem accepts (h : v.Matches ρ v') (t : TypeSet) : t.accepts v' = t.accepts v :=
  congrArg t.acceptsKind h.kind

theorem quotedIfNeeded (h : v.Matches ρ v') : v.quotedIfNeeded.Matches ρ v'.quotedIfNeeded := by
  unfold Value.quotedIfNeeded
  rw [h.isInert]
  split
  · exact h
  · exact .quoted h

end Value.Matches

mutual

theorem Value.Matches.mold {v v' : Value} : v.Matches ρ v' → ρ.Alike v.mold v'.mold
  | .block h => .append (.append (.refl _) (.intercalate (Value.AllMatch.molds h) _)) (.refl _)
  | .group h => .append (.append (.refl _) (.intercalate (Value.AllMatch.molds h) _)) (.refl _)
  | .path h => .intercalate (Value.AllMatch.molds h) _
  | .setPath h => .append (.intercalate (Value.AllMatch.molds h) _) (.refl _)
  | .getPath h => .append (.refl _) (.intercalate (Value.AllMatch.molds h) _)
  | .sym h => .append (.refl _) h.mold
  | .quoted h => .append (.refl _) h.mold
  | .frame f => .append (.append (.refl _) (.number f.id)) (.refl _)
  | .error _ h => .append (.append (.refl _) h.message) (.refl _)
  | .action _ (.mk ..) | .varargs .. => .refl _
  | .null | .void | .blank | .logic _ | .integer _ | .decimal _ | .text _ | .tag _
  | .refinement _ | .datatype _ | .word _ | .setWord _ | .getWord _ | .comma => .refl _

theorem Value.AllMatch.molds {items items' : List Value} : Value.AllMatch ρ items items' →
    List.Forall₂ ρ.Alike (Value.molds items) (Value.molds items')
  | .nil => .nil
  | .cons h hs => .cons h.mold (Value.AllMatch.molds hs)

end

mutual

theorem Value.Matches.same {v v' w w' : Value} : v.Matches ρ v' → w.Matches ρ w' →
    v'.same w' = v.same w := by
  intro hv hw
  cases hv with
  | block h | group h | path h | setPath h | getPath h =>
    cases hw with
    | block hw | group hw | path hw | setPath hw | getPath hw =>
      first
      | exact Value.AllMatch.sameAll h hw
      | rfl
    | _ => rfl
  | sym h | quoted h =>
    cases hw with
    | sym hw | quoted hw =>
      first
      | exact h.same hw
      | rfl
    | _ => rfl
  | action id h =>
    cases hw with
    | action id' h' => exact Bool.eq_iff_iff.2 (by simp [Value.same, ρ.identity_injective.eq_iff])
    | _ => rfl
  | varargs id h =>
    cases hw with
    | varargs id' h' => exact Bool.eq_iff_iff.2 (by simp [Value.same, ρ.identity_injective.eq_iff])
    | _ => rfl
  | error id h =>
    cases hw with
    | error id' h' => exact Bool.eq_iff_iff.2 (by simp [Value.same, ρ.identity_injective.eq_iff])
    | _ => rfl
  | frame f =>
    cases hw with
    | frame f' =>
      exact Bool.eq_iff_iff.2 (by
        simp [Value.same, Renumbering.frameRef, ρ.frame_injective.eq_iff])
    | _ => rfl
  | _ => cases hw <;> rfl

theorem Value.AllMatch.sameAll {items items' others others' : List Value} :
    Value.AllMatch ρ items items' → Value.AllMatch ρ others others' →
      Value.sameAll items' others' = Value.sameAll items others
  | .nil, .nil => rfl
  | .nil, .cons _ _ => rfl
  | .cons _ _, .nil => rfl
  | .cons h hs, .cons h' hs' => by
    rw [Value.sameAll, Value.sameAll, h.same h', Value.AllMatch.sameAll hs hs']

end

namespace Value.Matches

variable {v v' w w' : Value}

theorem form (h : v.Matches ρ v') : ρ.Alike v.form v'.form := by
  cases h with
  | text s => exact .refl s
  | _ => exact mold (by constructor <;> assumption)

end Value.Matches

/-! ### Values without numbers -/

mutual

/-- Whether there is no action, varargs, frame or error in a value. -/
def Value.isNumberless : Value → Bool
  | .block items | .group items | .path items | .setPath items | .getPath items =>
    Value.allNumberless items
  | .sym v | .quoted v => v.isNumberless
  | .action _ _ | .varargs _ _ | .frame _ | .error _ _ => false
  | _ => true

def Value.allNumberless : List Value → Bool
  | [] => true
  | v :: rest => v.isNumberless && Value.allNumberless rest

end

mutual

theorem Value.Matches.eq_of_numberless {v v' : Value} : v.Matches ρ v' → v.isNumberless = true →
    v' = v := by
  intro h hv
  cases h with
  | block h => rw [Value.AllMatch.eq_of_numberless h hv]
  | group h => rw [Value.AllMatch.eq_of_numberless h hv]
  | path h => rw [Value.AllMatch.eq_of_numberless h hv]
  | setPath h => rw [Value.AllMatch.eq_of_numberless h hv]
  | getPath h => rw [Value.AllMatch.eq_of_numberless h hv]
  | sym h => rw [h.eq_of_numberless hv]
  | quoted h => rw [h.eq_of_numberless hv]
  | action | varargs | frame | error => cases hv
  | _ => rfl

theorem Value.AllMatch.eq_of_numberless {items items' : List Value} :
    Value.AllMatch ρ items items' → Value.allNumberless items = true → items' = items
  | .nil, _ => rfl
  | .cons h hs, hitems => by
    obtain ⟨hv, hrest⟩ := Bool.and_eq_true_iff.1 hitems
    rw [h.eq_of_numberless hv, Value.AllMatch.eq_of_numberless hs hrest]

end

mutual

theorem Value.matches_of_numberless (ρ : Renumbering) (v : Value) (h : v.isNumberless = true) :
    v.Matches ρ v := by
  cases v with
  | block items => exact .block (Value.allMatch_of_numberless ρ items h)
  | group items => exact .group (Value.allMatch_of_numberless ρ items h)
  | path items => exact .path (Value.allMatch_of_numberless ρ items h)
  | setPath items => exact .setPath (Value.allMatch_of_numberless ρ items h)
  | getPath items => exact .getPath (Value.allMatch_of_numberless ρ items h)
  | sym v => exact .sym (Value.matches_of_numberless ρ v h)
  | quoted v => exact .quoted (Value.matches_of_numberless ρ v h)
  | action | varargs | frame | error => cases h
  | _ => constructor

theorem Value.allMatch_of_numberless (ρ : Renumbering) : (items : List Value) →
    Value.allNumberless items = true → Value.AllMatch ρ items items
  | [], _ => .nil
  | v :: rest, h => by
    obtain ⟨hv, hrest⟩ := Bool.and_eq_true_iff.1 h
    exact .cons (Value.matches_of_numberless ρ v hv) (Value.allMatch_of_numberless ρ rest hrest)

end

/-! ### Actions -/

mutual

theorem Action.Matches.adaptations {a a' : Action} :
    a.Matches ρ a' → a'.adaptations = a.adaptations
  | .mk _ _ _ d _ _ _ _ => d.adaptations

theorem Dispatcher.Matches.adaptations {d d' : Dispatcher} :
    d.Matches ρ d' → d'.adaptations = d.adaptations
  | .adapted _ _ h => congrArg (· + 1) h.adaptations
  | .native _ | .interpreted _ _ | .returnTo _ => rfl

end

namespace Action.Matches

variable {a a' b b' : Action}

theorem label (h : a.Matches ρ a') : a'.label = a.label := by cases h; rfl

theorem params (h : a.Matches ρ a') : a'.params = a.params := by cases h; rfl

theorem enfixed (h : a.Matches ρ a') : a'.enfixed = a.enfixed := by cases h; rfl

theorem deferral (h : a.Matches ρ a') : a'.deferral = a.deferral := by cases h; rfl

theorem dispatcher (h : a.Matches ρ a') : a.dispatcher.Matches ρ a'.dispatcher := by
  cases h
  assumption

theorem signature_iff (h : a.Matches ρ a') (hb : b.Matches ρ b') :
    a'.signature = b'.signature ↔ a.signature = b.signature := by
  cases h
  cases hb
  exact ρ.identity_injective.eq_iff

theorem labelOr (h : a.Matches ρ a') (fallback : String) :
    a'.labelOr fallback = a.labelOr fallback := by
  cases h
  rfl

theorem firstArgument? (h : a.Matches ρ a') : a'.firstArgument? = a.firstArgument? := by
  cases h
  rfl

theorem firstParam? (h : a.Matches ρ a') : a'.firstParam? = a.firstParam? := by cases h; rfl

theorem quotesFirst (h : a.Matches ρ a') : a'.quotesFirst = a.quotesFirst := by cases h; rfl

theorem toleratesAbsentLeft (h : a.Matches ρ a') :
    a'.toleratesAbsentLeft = a.toleratesAbsentLeft := by
  cases h
  rfl

theorem bindsWord (h : a.Matches ρ a') (i : Nat) : a'.bindsWord i = a.bindsWord i := by
  cases h
  rfl

theorem findParam? (h : a.Matches ρ a') (name : String) :
    a'.findParam? name = a.findParam? name := by
  cases h
  rfl

theorem findRefinement? (h : a.Matches ρ a') (name : String) :
    a'.findRefinement? name = a.findRefinement? name := by
  cases h
  rfl

theorem refinementArguments (h : a.Matches ρ a') (i : Nat) :
    a'.refinementArguments i = a.refinementArguments i := by
  cases h
  rfl

theorem preset? (h : a.Matches ρ a') (i : Nat) :
    Value.MaybeMatch ρ (a.preset? i) (a'.preset? i) := by
  cases h with
  | mk _ _ _ _ exemplar =>
    cases exemplar with
    | none => exact .none
    | some hslots =>
      exact rel_join (rel_getElem? hslots i)

theorem specialized (h : a.Matches ρ a') {slots slots' : List (Option Value)}
    (hs : List.Forall₂ (Value.MaybeMatch ρ) slots slots') :
    (a.specialized slots).Matches ρ (a'.specialized slots') := by
  have hpreset := h.preset?
  cases h with
  | mk label params signature d _ enfixed deferral description =>
    refine .mk label params signature d (.some ?_) enfixed deferral description
    refine List.rel_map ?_ (rel_zipIdx hs 0)
    rintro ⟨slot, i⟩ ⟨slot', _⟩ ⟨hslot, rfl⟩
    exact rel_or hslot (hpreset _)

end Action.Matches

/-! ### Signals -/

inductive SignalLabel.Matches (ρ : Renumbering) : SignalLabel → SignalLabel → Prop
  | returnTo (target : FrameId) :
    SignalLabel.Matches ρ (.returnTo target) (.returnTo (ρ.frame target))
  | breakLoop : SignalLabel.Matches ρ .breakLoop .breakLoop
  | continueLoop : SignalLabel.Matches ρ .continueLoop .continueLoop
  | throw {name name' : Option Value} (h : Value.MaybeMatch ρ name name') :
    SignalLabel.Matches ρ (.throw name) (.throw name')
  | halt : SignalLabel.Matches ρ .halt .halt
  | dialect (name : String) : SignalLabel.Matches ρ (.dialect name) (.dialect name)

structure Signal.Matches (ρ : Renumbering) (s s' : Signal) : Prop where
  label : s.label.Matches ρ s'.label
  payload : s.payload.Matches ρ s'.payload

theorem Signal.Matches.halt : Signal.halt.Matches ρ Signal.halt := ⟨.halt, .null⟩

inductive Taker.Matches (ρ : Renumbering) : Taker → Taker → Prop
  | loop (body body' : List Value) : Taker.Matches ρ (.loop body) (.loop body')
  | catching {names names' : Option (List Value)}
    (h : Option.Rel (Value.AllMatch ρ) names names') :
    Taker.Matches ρ (.catching names) (.catching names')
  | activation (id : FrameId) : Taker.Matches ρ (.activation id) (.activation (ρ.frame id))

theorem Taker.Matches.takes {t t' : Taker} {s s' : Signal} (h : t.Matches ρ t')
    (hs : s.Matches ρ s') : t'.takes s' = t.takes s := by
  obtain ⟨label, payload⟩ := s
  obtain ⟨label', payload'⟩ := s'
  obtain ⟨hlabel, -⟩ := hs
  cases h with
  | loop body body' => cases hlabel <;> rfl
  | catching h =>
    cases hlabel with
    | throw hname =>
      cases hname with
      | none => cases h <;> rfl
      | some hname =>
        cases h with
        | none => rfl
        | some hnames =>
          show List.any _ _ = List.any _ _
          induction hnames with
          | nil => rfl
          | cons h _ ih => rw [List.any_cons, List.any_cons, h.same hname, ih]
    | _ => rfl
  | activation id =>
    cases hlabel with
    | returnTo target =>
      show (ρ.frame target == ρ.frame id) = (target == id)
      exact Bool.eq_iff_iff.2 (by simp [ρ.frame_injective.eq_iff])
    | _ => rfl

end Homoicon
