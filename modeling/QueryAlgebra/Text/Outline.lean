/-!
# Outlines

A tree of labels drawn one label a line, with branches that connect each node to its parent.
-/

namespace QueryAlgebra

/-- A tree of labels; a node may carry a detail that is shown behind its label. -/
inductive Outline where
  | node (label : String) (detail? : Option String) (children : List Outline)
deriving Inhabited

namespace Outline

/-- The line of one node. -/
def line (label : String) (detail? : Option String) : String :=
  match detail? with
  | none => label ++ "\n"
  | some detail => label ++ " (" ++ detail ++ ")\n"

mutual

/-- A node that is not the root: its branch, its line, and what hangs below it. -/
def drawBelow (margin : String) (isLast : Bool) : Outline → String
  | node label detail? children =>
    margin ++ (if isLast then "└─ " else "├─ ") ++ line label detail?
      ++ drawAll (margin ++ if isLast then "   " else "│  ") children

/-- Nodes that share a parent. -/
def drawAll (margin : String) : List Outline → String
  | [] => ""
  | [child] => drawBelow margin true child
  | child :: children => drawBelow margin false child ++ drawAll margin children

end

/-- The drawing; every line is ended. -/
def draw : Outline → String
  | node label detail? children => line label detail? ++ drawAll "" children

end Outline

end QueryAlgebra
