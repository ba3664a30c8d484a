import Homoicon.Eval
import Homoicon.OutCell

/-!
# Frames

A frame is one activation over a feed.  Entering a frame gives it a new number and puts it on the
stack, which may not grow beyond the configured depth; it is taken off again however its body ends.
-/

namespace Homoicon

structure Frame where
  id : FrameId
  feed : FeedId
  out : OutCell := {}
  /-- Whether the frame evaluates an argument of an enclosing call. -/
  fulfilling : Bool := false
  /-- Whether the current step must not look ahead. -/
  noLookahead : Bool := false

instance : Inhabited Frame := ⟨{ id := 0, feed := 0 }⟩

def withFrame {α : Type} (feed : FeedId) (label : Option String) (body : Frame → Eval α) :
    Eval α :=
  .inFrame label (fun id => body { id, feed }) .done

end Homoicon
