import QueryAlgebra.Tree
import QueryAlgebra.Text.Truncation
import QueryAlgebra.Text.Outline

/-!
# How trees are shown

Each node has a label of one line; `Tree.explain` draws the labels of a whole tree as an outline.
-/

namespace QueryAlgebra

/-- The width to which the text of a native query is cut in labels. -/
def nativeLabelWidth : Nat := 60

def NativeQuery.label (q : NativeQuery) : String :=
  "NATIVE " ++ q.vars.bracketed ++ " " ++ truncate q.text nativeLabelWidth

def SortKey.label (k : SortKey) : String := k.term.text ++ if k.ascending then " ASC" else " DESC"

def Window.label (w : Window) : String :=
  "SLICE offset=" ++ toString w.offset ++ w.limit?.elim "" fun l => " limit=" ++ toString l

def Leaf.label : Leaf → String
  | extensional atom => "EXTENSIONAL " ++ atom.text
  | intensional atom => "INTENSIONAL " ++ atom.text
  | native query => query.label
  | empty projected => "EMPTY " ++ projected.bracketed
  | unit => "TRUE"

namespace Tree

/-- A name followed by a condition, if there is one. -/
def labelWithCondition (name : String) (condition? : Option Expression) : String :=
  condition?.elim name fun e => name ++ " " ++ e.text

/-- A name followed by columns and bindings. -/
def labelWithBindings (name : String) (columns : VarSet) (bindings : Substitution) : String :=
  name ++ " " ++ columns.bracketed ++ " [" ++ bindings.text ++ "]"

/-- The root in one line. -/
def label : Tree → String
  | construct _ projected bindings _ => labelWithBindings "CONSTRUCT" projected bindings
  | filter _ condition _ => labelWithCondition "FILTER" (some condition)
  | join _ condition? _ => labelWithCondition "JOIN" condition?
  | leftJoin _ condition? _ _ => labelWithCondition "LJ" condition?
  | union _ projected _ => "UNION " ++ projected.bracketed
  | distinct _ _ => "DISTINCT"
  | slice _ window _ => window.label
  | orderBy _ keys _ => "ORDER BY [" ++ ", ".intercalate (keys.map SortKey.label) ++ "]"
  | aggregate _ grouping bindings _ => labelWithBindings "AGGREGATE" grouping bindings
  | leaf _ l => l.label

mutual

/-- The labels of the tree. -/
def outline : Tree → Outline
  | construct m p s t => .node (construct m p s t).label none [outline t]
  | filter m e t => .node (filter m e t).label none [outline t]
  | join m e ts => .node (join m e ts).label none (outlines ts)
  | leftJoin m e l r => .node (leftJoin m e l r).label none [outline l, outline r]
  | union m p ts => .node (union m p ts).label none (outlines ts)
  | distinct m t => .node (distinct m t).label none [outline t]
  | slice m w t => .node (slice m w t).label none [outline t]
  | orderBy m k t => .node (orderBy m k t).label none [outline t]
  | aggregate m g s t => .node (aggregate m g s t).label none [outline t]
  | leaf m l => .node (leaf m l).label none []

/-- The labels of the trees. -/
def outlines : List Tree → List Outline
  | [] => []
  | t :: ts => outline t :: outlines ts

end

/-- The tree drawn with one node a line. -/
def explain (t : Tree) : String := t.outline.draw

end Tree

end QueryAlgebra
