import QueryOptimizer.Operator.Text
import QueryOptimizer.Plan.Basic

/-! # Drawings of plans -/

namespace QueryOptimizer

/-- A tree of labels. -/
inductive Drawing where
  | item (label : String) (children : List Drawing)

namespace Drawing

mutual
/-- The lines below an item. The last child closes the vertical line. -/
def childLines (margin : String) : List Drawing → List String
  | [] => []
  | [last] => lines (margin ++ "└─ ") (margin ++ "   ") last
  | child :: rest => lines (margin ++ "├─ ") (margin ++ "│  ") child ++ childLines margin rest

/-- The lines of an item, the first behind `first`, those below behind `margin`. -/
def lines (first margin : String) : Drawing → List String
  | item label children => (first ++ label) :: childLines margin children
end

/-- The drawing as text. Every line ends with a newline. -/
def text (drawing : Drawing) : String :=
  String.join ((drawing.lines "" "").map (· ++ "\n"))

end Drawing

namespace Plan

/-- The text of a node: its operator and, once chosen, the physical operator and where it runs. -/
def nodeText (plan : Plan) (id : NodeId) : String :=
  let node := plan.node id
  match node.physical with
  | some physical => node.operator.text ++ " [" ++ physical.text ++ "] " ++ node.mode.text
  | none => node.operator.text

/-- The tree below a node, down to the depth given by the fuel. -/
def drawing (plan : Plan) : Nat → NodeId → Drawing
  | 0, id => .item (plan.nodeText id) []
  | fuel + 1, id =>
      let nested := (plan.operator id).nested.zipIdx.map fun (roots, index) =>
        Drawing.item ("nested plan #" ++ Nat.repr index) (roots.map (drawing plan fuel))
      .item (plan.nodeText id) ((plan.inputs id).map (drawing plan fuel) ++ nested)

/-- The plan drawn as a tree. -/
def explain (plan : Plan) : String := (plan.drawing plan.nodes.length plan.root).text

end Plan

end QueryOptimizer
