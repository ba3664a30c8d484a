import Homoicon.Config
import Homoicon.Toml.Document

/-!
# Settings

The configuration as a TOML document: every setting is optional, and unknown keys do not count.
-/

namespace Homoicon

inductive SettingsError where
  /-- The document cannot be read, or a setting is of the wrong type. -/
  | unreadable
  /-- A setting has a value that makes no sense. -/
  | invalid (message : String)
  deriving DecidableEq, Inhabited

def SettingsError.message : SettingsError → String
  | .unreadable => "invalid configuration: cannot be read"
  | .invalid detail => "invalid configuration: " ++ detail

namespace Settings

def naturalBelow (bound : Nat) : Toml.Item → Except SettingsError Nat
  | .integer n => if 0 ≤ n && n < bound then .ok n.toNat else .error .unreadable
  | _ => .error .unreadable

def boolean : Toml.Item → Except SettingsError Bool
  | .boolean b => .ok b
  | _ => .error .unreadable

def text : Toml.Item → Except SettingsError (Option String)
  | .string s => .ok (some s)
  | _ => .error .unreadable

def setting {α : Type} (es : Toml.Entries) (key : String)
    (read : Toml.Item → Except SettingsError α) (otherwise : α) : Except SettingsError α :=
  match es.item? key with
  | some item => read item
  | none => .ok otherwise

def read (s : String) : Except SettingsError Config := do
  match Toml.read? s with
  | none => .error .unreadable
  | some es =>
    let initial : Config := {}
    let maxDepth ← setting es "max_depth" (naturalBelow UInt64.size) initial.maxDepth
    let pollInterval ← setting es "poll_interval" (naturalBelow UInt32.size) initial.pollInterval
    let traceSteps ← setting es "trace_steps" boolean initial.traceSteps
    let historyFile ← setting es "history_file" text initial.historyFile
    if maxDepth = 0 then .error (.invalid "max_depth must be positive")
    else return { maxDepth, pollInterval, traceSteps, historyFile }

end Settings

end Homoicon
