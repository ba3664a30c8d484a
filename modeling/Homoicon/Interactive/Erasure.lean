import Homoicon.Text.Bytes
import Homoicon.Text.Cluster

/-!
# Erasures in a line

A backspace in a line takes back the character before it as a reader counts characters, that is a
whole cluster.  A line without backspaces stays as it is (`corrected_of_not_mem`).
-/

namespace Homoicon.Interactive

def backspace : Char := '\x08'

structure Draft where
  chars : List Char := []
  /-- How many bytes taking back each cluster removes, the last one first. -/
  widths : List Nat := []
  deriving DecidableEq, Inhabited

namespace Draft

/-- The number of widths that can be told apart: a width is held in one byte, so that of a longer
cluster only an end is taken back. -/
def widthLimit : Nat := 256

def write (d : Draft) (cluster : List Char) : Draft :=
  { chars := cluster.reverse ++ d.chars
    widths := Text.byteLength cluster % widthLimit :: d.widths }

def erase (d : Draft) : Draft :=
  match d.widths with
  | [] => d
  | width :: widths => { chars := Text.dropBytes d.chars width, widths }

def enter (d : Draft) (cluster : List Char) : Draft :=
  if cluster = [backspace] then d.erase else d.write cluster

theorem erase_write {d : Draft} {cluster : List Char}
    (h : Text.byteLength cluster < widthLimit) : (d.write cluster).erase = d := by
  have hdrop := Text.dropBytes_append cluster.reverse d.chars
  rw [Text.byteLength_reverse] at hdrop
  simp [write, erase, Nat.mod_eq_of_lt h, hdrop]

theorem chars_foldl_enter {d : Draft} {gs : List (List Char)} (h : ∀ g ∈ gs, g ≠ [backspace]) :
    (gs.foldl enter d).chars = gs.flatten.reverse ++ d.chars := by
  induction gs generalizing d with
  | nil => simp
  | cons g gs ih =>
    have hg : g ≠ [backspace] := h g List.mem_cons_self
    have hgs : ∀ x ∈ gs, x ≠ [backspace] := fun x hx => h x (List.mem_cons_of_mem g hx)
    rw [List.foldl_cons, ih hgs]
    simp [enter, hg, write]

end Draft

def corrected (line : List Char) : List Char :=
  ((Text.clusters line).foldl Draft.enter {}).chars.reverse

theorem corrected_of_not_mem {line : List Char} (h : backspace ∉ line) : corrected line = line := by
  have hgs : ∀ g ∈ Text.clusters line, g ≠ [backspace] := by
    rintro g hg rfl
    apply h
    rw [← Text.flatten_clusters line]
    exact List.mem_flatten.2 ⟨[backspace], hg, List.mem_singleton_self backspace⟩
  rw [corrected, Draft.chars_foldl_enter hgs, Text.flatten_clusters]
  simp

end Homoicon.Interactive
