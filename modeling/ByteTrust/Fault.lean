import ByteTrust.Ident.Basic

/-!
# What can be wrong with a program

Each fault names its cause; its wording stands in `Fault.message` alone.
-/

namespace ByteTrust

/-- Why a loop is malformed. -/
inductive LoopDefect
  | neverClosed
  | noBlocks
  | preheaderInside
  | peelKeepsBody
  | noIterations
  | headerNotFirst
  | notIteration (context : ContextId) (position : Nat)
  | preheaderMissesPeel
  | blocksDisagree
  | bodyStart
  | latchOutside
  | outsideEntries (found : List BlockId)
  | insideEntries (found : List BlockId)
  | noBackEdge
  | iterationStart
deriving DecidableEq, Repr

/-- The wording of a defect. -/
def LoopDefect.message : LoopDefect → String
  | .neverClosed => "loop was never closed"
  | .noBlocks => "loop has no blocks"
  | .preheaderInside => "preheader lies inside the loop"
  | .peelKeepsBody => "a terminated peel cannot keep a general body"
  | .noIterations => "peel attempt has no iterations"
  | .headerNotFirst => "region header is not the first iteration's header"
  | .notIteration context position =>
    context.render ++ " is not iteration " ++ Nat.repr position ++ " of this loop"
  | .preheaderMissesPeel => "preheader does not enter the first iteration"
  | .blocksDisagree => "block set disagrees with the region body"
  | .bodyStart => "body does not start at the header"
  | .latchOutside => "latch lies outside the loop"
  | .outsideEntries found =>
    "header must have exactly one outside predecessor, found " ++ Ident.renderList found
  | .insideEntries found =>
    "header's only in-loop predecessor must be the latch, found " ++ Ident.renderList found
  | .noBackEdge => "latch does not branch back to the header"
  | .iterationStart => "iteration does not start at its header"

/-- Why an analysis stops. -/
inductive Fault
  | unknownContext (context : ContextId)
  | unknownBlock (context : ContextId) (block : BlockId)
  | unknownObject (object : ObjectId)
  | unknownInstr (inst : InstId)
  | malformedLoop (context : ContextId) (loop : LoopId) (defect : LoopDefect)
  | danglingEdge (context : ContextId) (source target : BlockId)
  /-- Snapshots that meet disagree on the frames. -/
  | frameMismatch (left right : Nat)
  /-- A frame was taken off an empty stack. -/
  | noFrame
  /-- Contexts enter each other without end. -/
  | endless
deriving DecidableEq, Repr

/-- The wording of a fault. -/
def Fault.message : Fault → String
  | .unknownContext context => "context " ++ context.render ++ " does not exist"
  | .unknownBlock context block =>
    "block " ++ block.render ++ " does not exist in context " ++ context.render
  | .unknownObject object => "object " ++ object.render ++ " is not declared"
  | .unknownInstr inst => "instruction " ++ inst.render ++ " is not part of the program"
  | .malformedLoop context loop defect =>
    "loop " ++ loop.render ++ " in context " ++ context.render ++ " is malformed: " ++
      defect.message
  | .danglingEdge context source target =>
    "edge from " ++ source.render ++ " to " ++ target.render ++ " in context " ++
      context.render ++ " leaves the function"
  | .frameMismatch left right =>
    "snapshots merged at a join disagree on the frame stack (" ++ Nat.repr left ++ " vs " ++
      Nat.repr right ++ " frames)"
  | .noFrame => "popped a stack frame from an empty frame list"
  | .endless => "contexts enter each other without end"

end ByteTrust
