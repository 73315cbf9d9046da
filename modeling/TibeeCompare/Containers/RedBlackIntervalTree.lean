import TibeeCompare.Basic
import Mathlib.Data.List.Sort
import Mathlib.Data.Nat.Notation

/-!
`containers::RedBlackIntervalTree`: intervals with values, in a red-black tree that
is ordered by the lower bounds.

All elements with one lower bound share a node. A node keeps the maximum of the
higher bounds in its subtree, and a search skips the subtrees that end too early.
-/

namespace TibeeCompare.Containers

/-- An interval. The two bounds are included in it. -/
structure Interval where
  low : ℕ
  high : ℕ
deriving DecidableEq, Repr

abbrev ElementPair (T : Type) := Interval × T

inductive Color
  | red | black
deriving DecidableEq

def Color.flip : Color → Color
  | red => black
  | black => red

/-! ### The elements of a node -/

section Elements

variable {T : Type}

/-- `ElementsSortPredicate`, as the order that is not strict. -/
def endsBy (a b : ElementPair T) : Prop := a.1.high ≤ b.1.high

instance : DecidableRel (endsBy (T := T)) := fun a b => Nat.decLe a.1.high b.1.high

/-- The elements of a node with one more, sorted by their higher bounds. `std::sort` leaves open
in which order those with the same higher bound come; this is one of the allowed orders, in which
they come as they were inserted. -/
def addElement (elements : List (ElementPair T)) (interval : Interval) (value : T) :
    List (ElementPair T) :=
  (elements ++ [(interval, value)]).insertionSort endsBy

/-- The lower bound of all elements, which is the key of the node. -/
def nodeLow (elements : List (ElementPair T)) : ℕ :=
  match elements.head? with
  | none => 0
  | some e => e.1.low

def nodeMaxHigh (elements : List (ElementPair T)) : ℕ :=
  match elements.getLast? with
  | none => 0
  | some e => e.1.high

end Elements

/-! ### Nodes -/

inductive Node (T : Type)
  | null
  | node (elements : List (ElementPair T)) (color : Color) (left right : Node T)
      (subtreeMaxHigh : ℕ)

namespace Node

variable {T : Type}

def color : Node T → Color
  | null => .black
  | node _ color _ _ _ => color

def setColor (color : Color) : Node T → Node T
  | null => null
  | node elements _ left right subtreeMaxHigh => node elements color left right subtreeMaxHigh

def isRed (h : Node T) : Bool := h.color = .red

def left : Node T → Node T
  | null => null
  | node _ _ left _ _ => left

def subtreeMaxHigh : Node T → ℕ
  | null => 0
  | node _ _ _ _ subtreeMaxHigh => subtreeMaxHigh

/-- A node after `UpdateSubtreeMaxHigh`. -/
def update (elements : List (ElementPair T)) (color : Color) (left right : Node T) : Node T :=
  node elements color left right
    (max (max left.subtreeMaxHigh right.subtreeMaxHigh) (nodeMaxHigh elements))

def rotateLeft : Node T → Node T
  | node elements color left (node elements' _ left' right' _) _ =>
      update elements' color (update elements .red left left') right'
  | h => h

def rotateRight : Node T → Node T
  | node elements color (node elements' _ left' right' _) right _ =>
      update elements' color left' (update elements .red right' right)
  | h => h

/-- The end of `InsertInternal`. -/
def fixUp (h : Node T) : Node T :=
  let h :=
    match h with
    | node _ _ left right _ => if !left.isRed && right.isRed then h.rotateLeft else h
    | null => h
  if h.left.isRed && h.left.left.isRed then h.rotateRight else h

/-- `InsertInternal` on a node that has the color `color` by now. `FlipColors`
turns the colors of a node with two red children and of these children, so
that a child gets its new color with the call. -/
def insertInternal (interval : Interval) (value : T) : Color → Node T → Node T
  | _, null => update (addElement [] interval value) .red null null
  | color, node elements _ left right _ =>
      let flips := left.isRed && right.isRed
      let color := if flips then color.flip else color
      let leftColor := if flips then left.color.flip else left.color
      let rightColor := if flips then right.color.flip else right.color
      if interval.low < nodeLow elements then
        fixUp (update elements color (insertInternal interval value leftColor left)
          (right.setColor rightColor))
      else if interval.low = nodeLow elements then
        fixUp (update (addElement elements interval value) color (left.setColor leftColor)
          (right.setColor rightColor))
      else
        fixUp (update elements color (left.setColor leftColor)
          (insertInternal interval value rightColor right))

/-- `EnumerateIntersectionInternal`: the elements that the callback is given. -/
def enumerateIntersectionInternal (interval : Interval) : Node T → List (ElementPair T)
  | null => []
  | node elements _ left right _ =>
      let fromLeft :=
        if interval.low < left.subtreeMaxHigh then
          enumerateIntersectionInternal interval left
        else []
      if interval.high < nodeLow elements then fromLeft
      else
        let fromNode :=
          if interval.low < nodeMaxHigh elements then
            elements.reverse.takeWhile fun e => !decide (e.1.high < interval.low)
          else []
        fromLeft ++ fromNode ++ enumerateIntersectionInternal interval right

end Node

structure RedBlackIntervalTree (T : Type) where
  root : Node T := .null
  size : ℕ := 0

namespace RedBlackIntervalTree

variable {T : Type}

def insert (tree : RedBlackIntervalTree T) (interval : Interval) (value : T) :
    RedBlackIntervalTree T where
  root := (tree.root.insertInternal interval value tree.root.color).setColor .black
  size := tree.size + 1

def enumerateIntersection (tree : RedBlackIntervalTree T) (interval : Interval) :
    List (ElementPair T) :=
  tree.root.enumerateIntersectionInternal interval

/-- The tree after some elements have been inserted into it, one after the other. -/
def insertAll (tree : RedBlackIntervalTree T) (elements : List (ElementPair T)) :
    RedBlackIntervalTree T :=
  elements.foldl (fun tree e => tree.insert e.1 e.2) tree

end RedBlackIntervalTree

end TibeeCompare.Containers
