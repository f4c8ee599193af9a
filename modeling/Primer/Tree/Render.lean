import Primer.Tree

/-!
# Primer.Tree.Render — a tree written as a program.

Every node gives one line, its header, and some a closing line after their body.  A body stands one
step further to the right; the branches of a conditional stand where the conditional stands.
-/

namespace Primer.Tree

/-- A line of text with its distance from the margin, counted in steps of two spaces. -/
structure Line where
  depth : Nat
  text : String
deriving DecidableEq, Repr

/-- The line as written. -/
def Line.written (l : Line) : String :=
  String.ofList (List.replicate (2 * l.depth) ' ') ++ l.text

/-- A conditional, whose slots are rendered as branches. -/
def isConditional : Construct → Bool
  | .conditional .. => true
  | _ => false

/-- The lines of a node and of all that is under it, at most `bound` levels deep. -/
def lines (t : Tree) : Nat → Nat → NodeId → List Line
  | 0, _, _ => []
  | bound + 1, depth, id =>
    match t.construct? id with
    | none => []
    | some c =>
      if c.scope?.isNone then [⟨depth, c.header⟩]
      else
        let body := (t.children id).flatMap (t.lines bound (depth + 1))
        let slots := c.slots.flatMap fun slot =>
          if isConditional c then
            ⟨depth, ((t.construct? slot).map Construct.header).getD ""⟩
              :: (t.children slot).flatMap (t.lines bound (depth + 1))
          else t.lines bound (depth + 1) slot
        ⟨depth, c.header⟩ :: body ++ slots ++ (c.closing?.map (Line.mk depth)).toList

/-- The text of a node and of all that is under it. -/
def render (t : Tree) (id : NodeId) : String :=
  "\n".intercalate ((t.lines t.size 0 id).map Line.written)

end Primer.Tree
