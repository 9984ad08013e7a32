import UiTree.Query.Value
import UiTree.Query.Parser

/-!
# Evaluating queries

An expression is evaluated at a node, which has a position among the nodes it was listed with. A
step lists the nodes along its axis that pass its test and keeps, predicate by predicate, those for
which the predicate holds; a predicate whose value is a number holds at the position of that
number. What a step selects from several nodes is put in document order, each node once.
-/

namespace UiTree.Query

/-- Where an expression is evaluated. Positions count from one. -/
structure Context where
  node : DocNode
  position : Nat
  size : Nat

/-- The result of an evaluation. -/
abbrev Evaluated (α : Type) := Except EvaluationFault α

/-- The nodes of a set. Any other value is a fault. -/
def Value.nodesOr (fault : EvaluationFault) : Value → Evaluated (List DocNode)
  | .nodes ns => .ok ns
  | _ => .error fault

/-- Whether a predicate with this value holds at a position. -/
def Value.holdsAt (position : Nat) : Value → Bool
  | .number x => x == Float.ofNat position
  | v => v.toTruth

/-- The nodes of a list at which a predicate holds. The first of them has the position after
`before`. -/
def keep (predicate : Context → Evaluated Value) (size : Nat) :
    Nat → List DocNode → Evaluated (List DocNode)
  | _, [] => .ok []
  | before, n :: rest => do
    let v ← predicate ⟨n, before + 1, size⟩
    let kept ← keep predicate size (before + 1) rest
    .ok (if v.holdsAt (before + 1) then n :: kept else kept)

/-- The nodes selected from each of some nodes, one after the other. -/
def collect (select : DocNode → Evaluated (List DocNode)) :
    List DocNode → Evaluated (List DocNode)
  | [] => .ok []
  | n :: rest => do
    let found ← select n
    let more ← collect select rest
    .ok (found ++ more)

/-- An argument of a call. -/
def argument (f : Function) (arguments : List Value) (i : Nat) : Evaluated Value :=
  match arguments[i]? with
  | some v => .ok v
  | none => .error (.missingArgument f.name i)

/-- The value of a call. -/
def applyFunction (d : Document) (f : Function) (arguments : List Value) (c : Context) :
    Evaluated Value :=
  match f with
  | .position => .ok (.number (Float.ofNat c.position))
  | .last => .ok (.number (Float.ofNat c.size))
  | .not => do .ok (.truth !(← argument f arguments 0).toTruth)
  | .contains => do
    let text := (← argument f arguments 0).toText d
    .ok (.truth (Text.contains text ((← argument f arguments 1).toText d)))
  | .startsWith => do
    let text := (← argument f arguments 0).toText d
    .ok (.truth (Text.startsWith text ((← argument f arguments 1).toText d)))
  | .count => do
    let ns ← (← argument f arguments 0).nodesOr .countNotNodes
    .ok (.number (Float.ofNat ns.length))
  | .stringLength => do
    let text ←
      if arguments.isEmpty then .ok (d.textOf c.node)
      else (argument f arguments 0).map (·.toText d)
    .ok (.number (Float.ofNat text.length))

mutual

/-- The value of an expression. -/
def eval (d : Document) : Expr → Context → Evaluated Value
  | .binary .or a b, c => do
    if (← eval d a c).toTruth then .ok (.truth true)
    else .ok (.truth (← eval d b c).toTruth)
  | .binary .and a b, c => do
    if (← eval d a c).toTruth then .ok (.truth (← eval d b c).toTruth)
    else .ok (.truth false)
  | .binary op a b, c => do
    let left ← eval d a c
    let right ← eval d b c
    .ok (.truth (Value.compare d op left right))
  | .union parts, c => do .ok (.nodes (DocNode.inOrder (← evalParts d parts c)))
  | .path absolute steps, c => do
    .ok (.nodes (← evalSteps d steps [if absolute then .root else c.node]))
  | .literal s, _ => .ok (.text s)
  | .number x, _ => .ok (.number x)
  | .call f arguments, c => do applyFunction d f (← evalAll d arguments c) c

/-- The nodes of the parts of a union, one after the other. -/
def evalParts (d : Document) : List Expr → Context → Evaluated (List DocNode)
  | [], _ => .ok []
  | e :: es, c => do
    let found ← (← eval d e c).nodesOr .unionNotNodes
    let more ← evalParts d es c
    .ok (found ++ more)

/-- The values of the arguments of a call. -/
def evalAll (d : Document) : List Expr → Context → Evaluated (List Value)
  | [], _ => .ok []
  | e :: es, c => do
    let v ← eval d e c
    let vs ← evalAll d es c
    .ok (v :: vs)

/-- The nodes that the steps of a path select from some nodes. -/
def evalSteps (d : Document) : List Step → List DocNode → Evaluated (List DocNode)
  | [], ns => .ok ns
  | s :: ss, ns => do evalSteps d ss (DocNode.inOrder (← collect (evalStep d s) ns))

/-- The nodes that a step selects from one node, in the order of the axis. -/
def evalStep (d : Document) : Step → DocNode → Evaluated (List DocNode)
  | .mk axis test predicates, n =>
    evalPredicates d predicates ((d.along axis n).filter (d.passes axis test))

/-- The nodes of a list that are left by the predicates of a step. -/
def evalPredicates (d : Document) : List Expr → List DocNode → Evaluated (List DocNode)
  | [], ns => .ok ns
  | p :: ps, ns => do evalPredicates d ps (← keep (eval d p) ns.length 0 ns)

end

/-- The context in which a query starts. -/
def Context.start : Context := ⟨.root, 1, 1⟩

/-- The positions of the snapshot nodes behind some nodes of a document. The root has none. -/
def positionsOf (x : NodeIndex) : List DocNode → Evaluated (List Nat)
  | [] => .ok []
  | n :: rest =>
    match n.owner? with
    | none => positionsOf x rest
    | some i =>
      match x.node? i with
      | none => .error (.unindexed i)
      | some p => do .ok (p :: (← positionsOf x rest))

/-- The positions of the snapshot nodes that a query selects, ascending, each once. An attribute
stands for its element. -/
def Compiled.evaluate (q : Compiled) (d : Document) (x : NodeIndex) : Evaluated (List Nat) :=
  if !x.belongsTo d then .error .foreignIndex
  else do
    let ns ← (← eval d q.expr .start).nodesOr (.queryNotNodes q.text)
    let positions ← positionsOf x ns
    .ok (Ascending.ofList (fun p q => decide (p < q)) positions)

end UiTree.Query
