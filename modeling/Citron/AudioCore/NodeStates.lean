/-
# Sorting the mix graph

`NodeStates::Tsort`, a depth first search with a stack of its own. The stack and the results are
spans of the work buffer; a push past the end of its span stops the search with a fault.
-/
import Citron.Lib.Loop

namespace Citron
namespace AudioCore
namespace Renderer

open Function
open Lib (whileLoop)

structure EdgeMatrix where
  count : ℕ
  edges : ℕ → Bool

namespace EdgeMatrix

variable (e : EdgeMatrix)

def connected (id destinationId : ℕ) : Bool := e.edges (e.count * id + destinationId)

def connect (id destinationId : ℕ) : EdgeMatrix :=
  { e with edges := update e.edges (e.count * id + destinationId) true }

def disconnect (id destinationId : ℕ) : EdgeMatrix :=
  { e with edges := update e.edges (e.count * id + destinationId) false }

/-- The edges of the graph. -/
def Edge (x y : ℕ) : Prop := x < e.count ∧ y < e.count ∧ e.connected x y = true

/-- No node reaches itself. -/
def Acyclic : Prop := ∀ x, ¬ Relation.TransGen e.Edge x x

end EdgeMatrix

inductive SearchState
  | unknown | found | complete
  deriving DecidableEq

/-- The stack holds its entries from the top; `stackSize` is the size of its span. -/
structure NodeStates where
  nodeCount : ℕ
  resultPos : ℕ
  nodesFound : ℕ → Bool
  nodesComplete : ℕ → Bool
  results : List ℕ
  stack : List ℕ
  stackSize : ℕ

/-- Why a search does not reach its end. -/
inductive Stop
  | cycle (s : NodeStates)
  | stackOverflow
  | resultsOverflow
  | outOfTurns

namespace NodeStates

/-- What `std::fill` writes into the results, -1. -/
def noResult : ℕ := 0xFFFFFFFF

def initializeStates (count : ℕ) : NodeStates where
  nodeCount := count
  resultPos := 0
  nodesFound := fun _ => false
  nodesComplete := fun _ => false
  results := List.replicate count 0
  stack := []
  stackSize := count * count

variable (s : NodeStates)

def getState (id : ℕ) : SearchState :=
  if s.nodesFound id then .found else if s.nodesComplete id then .complete else .unknown

def setState (id : ℕ) : SearchState → NodeStates
  | .complete =>
    { s with nodesFound := update s.nodesFound id false
             nodesComplete := update s.nodesComplete id true }
  | .found =>
    { s with nodesFound := update s.nodesFound id true
             nodesComplete := update s.nodesComplete id false }
  | .unknown =>
    { s with nodesFound := update s.nodesFound id false
             nodesComplete := update s.nodesComplete id false }

def resetState : NodeStates :=
  { s with nodesFound := fun _ => false
           nodesComplete := fun _ => false
           results := s.results.map fun _ => noResult
           resultPos := 0 }

def push (data : ℕ) : Except Stop NodeStates :=
  if s.stack.length < s.stackSize then .ok { s with stack := data :: s.stack } else .error .stackOverflow

def pop : NodeStates := { s with stack := s.stack.tail }

def top : ℕ := s.stack.headD 0

def pushTsortResult (id : ℕ) : Except Stop NodeStates :=
  if s.resultPos < s.results.length then
    .ok { s with results := s.results.set s.resultPos id, resultPos := s.resultPos + 1 }
  else .error .resultsOverflow

/-- The body of the loop over the edges of a node. -/
def scanEdge (edgeMatrix : EdgeMatrix) (currentNode : ℕ) (s : NodeStates) (edgeId : ℕ) : Except Stop NodeStates :=
  if edgeMatrix.connected currentNode edgeId then
    match s.getState edgeId with
    | .unknown => s.push edgeId
    | .found => .error (.cycle s.resetState)
    | .complete => .ok s
  else .ok s

/-- The body of the loop while the stack has entries. -/
def visitTop (edgeMatrix : EdgeMatrix) (s : NodeStates) : Except Stop NodeStates :=
  let currentNode := s.top
  match s.getState currentNode with
  | .unknown =>
    (List.range edgeMatrix.count).foldlM (scanEdge edgeMatrix currentNode) (s.setState currentNode .found)
  | .found => do
    let s ← (s.setState currentNode .complete).pushTsortResult currentNode
    return s.pop
  | .complete => .ok s.pop

def searchFrom (turns : ℕ) (edgeMatrix : EdgeMatrix) (s : NodeStates) (nodeId : ℕ) : Except Stop NodeStates := do
  let s ← if s.getState nodeId = .unknown then s.push nodeId else .ok s
  whileLoop .outOfTurns (fun s => 0 < s.stack.length) (visitTop edgeMatrix) turns s

/-- Each loop over the stack runs for at most `turns` turns. -/
def depthFirstSearch (turns : ℕ) (edgeMatrix : EdgeMatrix) : Except Stop NodeStates :=
  (List.range s.nodeCount).foldlM (searchFrom turns edgeMatrix) s.resetState

/-- Whether the graph could be sorted, and the states that are left. -/
def tsort (turns : ℕ) (edgeMatrix : EdgeMatrix) : Except Stop (NodeStates × Bool) :=
  match s.depthFirstSearch turns edgeMatrix with
  | .ok s => .ok (s, true)
  | .error (.cycle s) => .ok (s, false)
  | .error stop => .error stop

/-- `GetSortedResuls`: what is read from the end of the results, as many as there are. -/
def getSortedResults : List ℕ := s.results.reverse.take s.resultPos

end NodeStates
end Renderer
end AudioCore
end Citron
