import PatternGraph.Store.Basic

/-!
# Checking what would be attached

Attaching a detached node brings along the edges wired to it, their other ends, the edges wired to
those, and so on.  `Store.preflight` walks through all of them in advance and refuses if one of the
edges lacks an end.
-/

namespace PatternGraph.Store

/-- The nodes of a list that no graph owns. -/
def detached (store : Store) (nodes : List Node) : List Node :=
  nodes.filter fun node => (store.graphOfNode node).isNone

/-- Looks at the edges wired to a node, and stacks their detached ends that have not been seen. -/
def inspect (store : Store) (node : Node) (seen : Std.ExtTreeSet NodeId) :
    List Edge → List Node → Except Fault (List Node)
  | [], stack => .ok stack
  | edge :: rest, stack =>
    match store.endpoints? edge with
    | none => .error (.danglingEdge edge.id node.id)
    | some (source, target) =>
      let found := (store.detached [target, source]).filter fun n => !seen.contains n.id
      inspect store node seen rest (found ++ stack)

/-- Walks from the stacked nodes to the nodes wired to them. -/
def survey (store : Store) : Nat → Std.ExtTreeSet NodeId → List Node → Except Fault Unit
  | 0, _, _ => .ok ()
  | _, _, [] => .ok ()
  | fuel + 1, seen, node :: stack =>
    if seen.contains node.id then survey store fuel seen stack
    else
      let seen := seen.insert node.id
      match inspect store node seen (store.pendingEdges node) stack with
      | .error fault => .error fault
      | .ok stack => survey store fuel seen stack

/-- The number of remembered edges of all nodes. -/
def pendingCount (store : Store) : Nat :=
  store.nodes.foldl (fun n _ state => n + state.pending.length) 0

/-- Checks that everything that attaching the roots would bring along is completely wired. -/
def preflight (store : Store) (roots : List Node) : Except Fault Unit :=
  let stack := (store.detached roots).reverse
  store.survey (stack.length + 2 * store.pendingCount) ∅ stack

end PatternGraph.Store
