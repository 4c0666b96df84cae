import Mathlib.Data.UInt
import Mathlib.Logic.Function.Basic

/-!
# Red-black trees in memory

`rbtree.c` and `rb_link_node` as they are written, over a memory of nodes: the colour of a node is
the lowest bit of the word with its parent, and a node that is not mapped cannot be accessed.  A
loop has a bound on its passes, `none` stands for an access that goes wrong and for a bound that is
used up.

The two sides of the source's branches are mirror images, so that one definition with a `Side`
stands for both. -/

namespace Mtrace.Rb

/-- `struct rb_node *`; `NULL` is `0`. -/
abbrev Ptr := UInt64

/-- `struct rb_node`. -/
structure RbNode where
  rbParentColor : UInt64
  rbRight : Ptr
  rbLeft : Ptr
  deriving DecidableEq, Repr

inductive Side where
  | left
  | right
  deriving DecidableEq, Repr

def Side.flip : Side → Side
  | left => right
  | right => left

namespace RbNode

def rbParent (n : RbNode) : Ptr := n.rbParentColor &&& ~~~3

def rbColor (n : RbNode) : UInt64 := n.rbParentColor &&& 1

def rbIsRed (n : RbNode) : Bool := n.rbColor == 0

def rbIsBlack (n : RbNode) : Bool := n.rbColor != 0

def rbSetRed (n : RbNode) : RbNode := { n with rbParentColor := n.rbParentColor &&& ~~~1 }

def rbSetBlack (n : RbNode) : RbNode := { n with rbParentColor := n.rbParentColor ||| 1 }

def rbSetParent (n : RbNode) (p : Ptr) : RbNode :=
  { n with rbParentColor := n.rbParentColor &&& 3 ||| p }

def rbSetColor (n : RbNode) (color : UInt64) : RbNode :=
  { n with rbParentColor := n.rbParentColor &&& ~~~1 ||| color }

/-- `rb_left` or `rb_right`. -/
def child (n : RbNode) : Side → Ptr
  | .left => n.rbLeft
  | .right => n.rbRight

def setChild (n : RbNode) (p : Ptr) : Side → RbNode
  | .left => { n with rbLeft := p }
  | .right => { n with rbRight := p }

end RbNode

/-- The nodes that are mapped, and `root->rb_node`. -/
structure Mem where
  node : Ptr → Option RbNode
  root : Ptr

/-- A `struct rb_node **`: the root's or that of a child. -/
inductive RbLink where
  | root
  | child (a : Ptr) (s : Side)
  deriving DecidableEq, Repr

namespace Mem

/-- Writing to a node. -/
def modify (m : Mem) (a : Ptr) (f : RbNode → RbNode) : Option Mem :=
  (m.node a).map fun n => { m with node := Function.update m.node a (some (f n)) }

def setRed (m : Mem) (a : Ptr) : Option Mem := m.modify a .rbSetRed

def setBlack (m : Mem) (a : Ptr) : Option Mem := m.modify a .rbSetBlack

def setParent (m : Mem) (a p : Ptr) : Option Mem := m.modify a (·.rbSetParent p)

def setColor (m : Mem) (a : Ptr) (color : UInt64) : Option Mem := m.modify a (·.rbSetColor color)

def setChild (m : Mem) (a p : Ptr) (s : Side) : Option Mem := m.modify a (·.setChild p s)

/-- `x && rb_is_red(x)`. -/
def isRed (m : Mem) (a : Ptr) : Option Bool :=
  if a = 0 then some false else (m.node a).map RbNode.rbIsRed

/-- `!x || rb_is_black(x)`. -/
def isBlack (m : Mem) (a : Ptr) : Option Bool :=
  if a = 0 then some true else (m.node a).map RbNode.rbIsBlack

/-- `if (x) rb_set_parent(x, p)`. -/
def reparent (m : Mem) (a p : Ptr) : Option Mem := if a = 0 then some m else m.setParent a p

/-- Below `parent` the place of `node` goes to `x`; the field of the side `s` is compared. -/
def replace (m : Mem) (parent node x : Ptr) (s : Side) : Option Mem :=
  if parent = 0 then some { m with root := x }
  else do
    if (← m.node parent).child s = node then m.setChild parent x s else m.setChild parent x s.flip

/-- `rb_link_node`. -/
def rbLinkNode (m : Mem) (node parent : Ptr) (rbLink : RbLink) : Option Mem := do
  let m ← m.modify node fun _ => ⟨parent, 0, 0⟩
  match rbLink with
  | .root => some { m with root := node }
  | .child a s => m.setChild a node s

/-- `__rb_rotate_left` and its mirror image: `node` goes down on the side `s`. -/
def rotate (m : Mem) (node : Ptr) (s : Side) : Option Mem := do
  let n ← m.node node
  let right := n.child s.flip
  let parent := n.rbParent
  let inner := (← m.node right).child s
  let m ← m.setChild node inner s.flip
  let m ← m.reparent inner node
  let m ← m.setChild right node s
  let m ← m.setParent right parent
  let m ← m.replace parent node right s
  m.setParent node right

/-- `__rb_rotate_left`. -/
def rbRotateLeft (m : Mem) (node : Ptr) : Option Mem := m.rotate node .left

/-- `__rb_rotate_right`. -/
def rbRotateRight (m : Mem) (node : Ptr) : Option Mem := m.rotate node .right

/-- The rotations that end a pass of `rb_insert_color`, and the node the loop goes on with. -/
def insertRotate (m : Mem) (node parent gparent : Ptr) (s : Side) : Option (Mem × Ptr) := do
  let (m, parent, node) ←
    if (← m.node parent).child s.flip = node then (m.rotate parent s).map (·, node, parent)
    else some (m, parent, node)
  let m ← m.setBlack parent
  let m ← m.setRed gparent
  (m.rotate gparent s.flip).map (·, node)

def rbInsertColor : ℕ → Mem → Ptr → Option Mem
  | 0, _, _ => none
  | fuel + 1, m, node => do
    let parent := (← m.node node).rbParent
    if parent = 0 then m.setBlack m.root
    else if (← m.node parent).rbIsBlack then m.setBlack m.root
    else
      let gparent := (← m.node parent).rbParent
      let g ← m.node gparent
      let s := if parent = g.rbLeft then Side.left else .right
      let uncle := g.child s.flip
      if ← m.isRed uncle then
        let m ← m.setBlack uncle
        let m ← m.setBlack parent
        let m ← m.setRed gparent
        rbInsertColor fuel m gparent
      else
        let (m, node) ← m.insertRotate node parent gparent s
        rbInsertColor fuel m node

/-- `__rb_erase_color`: a red sibling is rotated above the parent. -/
def eraseSibling (m : Mem) (parent other : Ptr) (s : Side) : Option (Mem × Ptr) := do
  if (← m.node other).rbIsRed then
    let m ← m.setBlack other
    let m ← m.setRed parent
    let m ← m.rotate parent s
    some (m, (← m.node parent).child s.flip)
  else some (m, other)

/-- Both children of a node are black. -/
def blackChildren (m : Mem) (other : Ptr) : Option Bool := do
  if ← m.isBlack (← m.node other).rbLeft then m.isBlack (← m.node other).rbRight else some false

/-- The rotations that end `__rb_erase_color`. -/
def eraseRotate (m : Mem) (parent other : Ptr) (s : Side) : Option Mem := do
  let (m, other) ←
    if ← m.isBlack ((← m.node other).child s.flip) then do
      let m ← m.setBlack ((← m.node other).child s)
      let m ← m.setRed other
      let m ← m.rotate other s.flip
      some (m, (← m.node parent).child s.flip)
    else some (m, other)
  let m ← m.setColor other (← m.node parent).rbColor
  let m ← m.setBlack parent
  let m ← m.setBlack ((← m.node other).child s.flip)
  m.rotate parent s

/-- `if (node) rb_set_black(node)`. -/
def blacken (m : Mem) (node : Ptr) : Option Mem := if node = 0 then some m else m.setBlack node

/-- `__rb_erase_color`. -/
def rbEraseColor : ℕ → Mem → Ptr → Ptr → Option Mem
  | 0, _, _, _ => none
  | fuel + 1, m, node, parent => do
    if (← m.isBlack node) && node != m.root then
      let p ← m.node parent
      let s := if p.rbLeft = node then Side.left else .right
      let (m, other) ← m.eraseSibling parent (p.child s.flip) s
      if ← m.blackChildren other then
        let m ← m.setRed other
        rbEraseColor fuel m parent (← m.node parent).rbParent
      else
        let m ← m.eraseRotate parent other s
        m.blacken m.root
    else m.blacken node

/-- `while (node->rb_left) node = node->rb_left`, and its mirror image. -/
def deepest : ℕ → Mem → Ptr → Side → Option Ptr
  | 0, _, _, _ => none
  | fuel + 1, m, node, s => do
    let next := (← m.node node).child s
    if next = 0 then some node else deepest fuel m next s

/-- The place of the successor `node` of `old` is closed; it takes over the right subtree. -/
def eraseSucc (m : Mem) (old node child parent : Ptr) : Option (Mem × Ptr) :=
  if parent = old then some (m, node)
  else do
    let m ← m.reparent child parent
    let m ← m.setChild parent child .left
    let right := (← m.node old).rbRight
    let m ← m.setChild node right .right
    let m ← m.setParent right node
    some (m, parent)

/-- `rb_erase` of a node with two children: its successor takes its place. -/
def eraseInner (fuel : ℕ) (m : Mem) (old : Ptr) (n : RbNode) : Option Mem := do
  let node ← m.deepest fuel n.rbRight .left
  let m ← m.replace n.rbParent old node .left
  let succ ← m.node node
  let child := succ.rbRight
  let parent := succ.rbParent
  let color := succ.rbColor
  let (m, parent) ← m.eraseSucc old node child parent
  let o ← m.node old
  let m ← m.modify node fun n => { n with rbParentColor := o.rbParentColor }
  let m ← m.setChild node o.rbLeft .left
  let m ← m.setParent o.rbLeft node
  if color = 1 then m.rbEraseColor fuel child parent else some m

/-- `rb_erase` of a node with at most one child. -/
def eraseOuter (fuel : ℕ) (m : Mem) (node : Ptr) (n : RbNode) (child : Ptr) : Option Mem := do
  let parent := n.rbParent
  let color := n.rbColor
  let m ← m.reparent child parent
  let m ← m.replace parent node child .left
  if color = 1 then m.rbEraseColor fuel child parent else some m

def rbErase (fuel : ℕ) (m : Mem) (node : Ptr) : Option Mem := do
  let n ← m.node node
  if n.rbLeft = 0 then m.eraseOuter fuel node n n.rbRight
  else if n.rbRight = 0 then m.eraseOuter fuel node n n.rbLeft
  else m.eraseInner fuel node n

/-- `malloc` that returns `a`; what is there is not known. -/
def malloc (m : Mem) (a : Ptr) (n : RbNode) : Mem :=
  { m with node := Function.update m.node a (some n) }

/-- `free`. -/
def free (m : Mem) (a : Ptr) : Option Mem :=
  (m.node a).map fun _ => { m with node := Function.update m.node a none }

/-! ## Walks -/

/-- `rb_first`, and its mirror image `rb_last`. -/
def rbEnd (fuel : ℕ) (m : Mem) (s : Side) : Option Ptr :=
  if m.root = 0 then some 0 else m.deepest fuel m.root s

def rbFirst (fuel : ℕ) (m : Mem) : Option Ptr := m.rbEnd fuel .left

def rbLast (fuel : ℕ) (m : Mem) : Option Ptr := m.rbEnd fuel .right

/-- The way up of `rb_next`. -/
def climb : ℕ → Mem → Ptr → Side → Option Ptr
  | 0, _, _, _ => none
  | fuel + 1, m, node, s => do
    let parent := (← m.node node).rbParent
    if parent = 0 then some 0
    else if node = (← m.node parent).child s then climb fuel m parent s
    else some parent

/-- `rb_next`, and its mirror image `rb_prev`. -/
def rbStep (fuel : ℕ) (m : Mem) (node : Ptr) (s : Side) : Option Ptr := do
  let n ← m.node node
  if n.rbParent = node then some 0
  else if n.child s = 0 then m.climb fuel node s
  else m.deepest fuel (n.child s) s.flip

def rbNext (fuel : ℕ) (m : Mem) (node : Ptr) : Option Ptr := m.rbStep fuel node .right

def rbPrev (fuel : ℕ) (m : Mem) (node : Ptr) : Option Ptr := m.rbStep fuel node .left

/-- `rb_left_deepest_node`. -/
def rbLeftDeepestNode : ℕ → Mem → Ptr → Option Ptr
  | 0, _, _ => none
  | fuel + 1, m, node => do
    let n ← m.node node
    if n.rbLeft ≠ 0 then rbLeftDeepestNode fuel m n.rbLeft
    else if n.rbRight ≠ 0 then rbLeftDeepestNode fuel m n.rbRight
    else some node

def rbNextPostorder (fuel : ℕ) (m : Mem) (node : Ptr) : Option Ptr :=
  if node = 0 then some 0
  else do
    let parent := (← m.node node).rbParent
    if parent = 0 then some 0
    else
      let p ← m.node parent
      if node = p.rbLeft ∧ p.rbRight ≠ 0 then m.rbLeftDeepestNode fuel p.rbRight else some parent

def rbFirstPostorder (fuel : ℕ) (m : Mem) : Option Ptr :=
  if m.root = 0 then some 0 else m.rbLeftDeepestNode fuel m.root

end Mem

end Mtrace.Rb
