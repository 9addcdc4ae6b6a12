import ForkChoice.Trie.Basic

/-!
# Outlines of the trie

* `Trie.outline`: a line for each node with its segment and its counts, a branch indented under the
  node that it leaves.
-/

namespace ForkChoice

namespace Node

/-- The segment of a node with its counts. -/
def line (node : Node) : String :=
  node.segment.text ++ "(T:" ++ toString node.tipSupport ++ ",B:" ++
    toString node.branchSupport ++ ")\n"

/-- What stands before a node so many steps below the root. -/
def margin : Nat → String
  | 0 => ""
  | depth + 1 => String.join (List.replicate depth "  ") ++ "|-"

mutual

/-- The lines of a node and its branches. -/
def outline (depth : Nat) : Node → String
  | ⟨segment, tip, branch, children⟩ =>
    margin depth ++ line ⟨segment, tip, branch, children⟩ ++ outlineAll (depth + 1) children

def outlineAll (depth : Nat) : List Node → String
  | [] => ""
  | child :: rest => child.outline depth ++ outlineAll depth rest

end

end Node

namespace Trie

def outline (t : Trie) : String := t.root.outline 0

end Trie

end ForkChoice
