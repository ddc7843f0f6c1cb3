import MemoryFlow.Dominance.Tree

/-! # The text of a dominator tree -/

namespace MemoryFlow.Tree

def optionText {kind : Kind} : Option (Entity kind) → String
  | some e => s!"Some({e})"
  | none => "None"

def Node.name (n : Node) : String :=
  match n.block with
  | some block => toString block
  | none => "<virtual>"

def Node.text (n : Node) : String :=
  "DomTreeNode \x7b block: " ++ optionText n.block ++ ", idom: " ++ optionText n.idom ++
    ", children: [" ++ ", ".intercalate (n.children.map toString) ++ "], level: " ++
    toString n.level ++ ", num_in: " ++ toString n.first ++ ", num_out: " ++
    toString n.last ++ " \x7d"

def text (t : Tree) : String :=
  "DomTreeBase \x7b post_dom: " ++ (if t.direction = .backward then "true" else "false") ++
    ", roots: [" ++ ", ".intercalate (t.roots.map fun root => optionText (some root)) ++
    "], root: " ++ optionText (t.blockOf? root) ++ ", nodes: [" ++
    ", ".intercalate (t.nodes.toList.map Node.text) ++ "] \x7d"

end MemoryFlow.Tree
