import NReduce.Logic.Sorting
import NReduce.Xml.Axes

/-!
# NReduce.Xml.Steps

Path expressions as they are compiled (`compile_expression`, `compile_axis` and `compile_test` in
`rules.c`, `is_expr_doc_order` in `analyse.c`), and the functions that the code calls
(`xslt.elc`), over sequences of nodes.
-/

namespace NReduce
namespace Xml

open Logic

/-! ## Nodes -/

/-- A node of the tree, or the attribute or the namespace node that has `i` others before it in
the list of its element. -/
inductive Place where
  | tree (x : Nat)
  | attr (x i : Nat)
  | ns (x i : Nat)
  deriving DecidableEq, Repr

structure Node where
  doc : Doc
  place : Place
  deriving DecidableEq, Repr

inductive NodeType where
  | item (type : ItemType)
  | attribute
  | nsnode
  deriving DecidableEq, Repr

namespace Doc

variable (d : Doc)

def tree (x : Nat) : Node := ⟨d, .tree x⟩

def attrs (x : Nat) (l : List Nat) : List Node := l.map fun i => ⟨d, .attr x i⟩

def attributes (x : Nat) : List Attr := (d.item x).attributes

def namespaces (x : Nat) : List Namespace := (d.item x).namespaces

end Doc

namespace Node

variable (n : Node)

def itemType : NodeType :=
  match n.place with
  | .tree x => .item (n.doc.type x)
  | .attr .. => .attribute
  | .ns .. => .nsnode

def itemNsuri : Str :=
  match n.place with
  | .tree x => (n.doc.item x).nsuri
  | .attr x i => ((n.doc.attributes x)[i]?.map (·.nsuri)).getD []
  | .ns x i => ((n.doc.namespaces x)[i]?.map (·.nsuri)).getD []

def itemLocalname : Str :=
  match n.place with
  | .tree x => (n.doc.item x).localname
  | .attr x i => ((n.doc.attributes x)[i]?.map (·.localname)).getD []
  | .ns .. => []

def itemRoot : Option Node :=
  match n.place with
  | .tree x | .attr x _ => (n.doc.item x).root.map n.doc.tree
  | .ns .. => none

def itemNext : List Node :=
  match n.place with
  | .tree x => (n.doc.nodeFollowingSiblings x).map n.doc.tree
  | .attr x i => n.doc.attrs x (List.range' (i + 1) ((n.doc.attributes x).length - (i + 1)))
  | .ns .. => []

def itemChildren : List Node :=
  match n.place with
  | .tree x => (n.doc.children x).map n.doc.tree
  | _ => []

def itemAttributes : List Node :=
  match n.place with
  | .tree x => n.doc.attrs x (List.range (n.doc.attributes x).length)
  | _ => []

def itemNamespaces : List Node :=
  match n.place with
  | .tree x => (List.range (n.doc.namespaces x).length).map fun i => ⟨n.doc, .ns x i⟩
  | _ => []

/-! The links of an attribute are those to the attributes next to it and to its element. A
namespace node has none. -/

def itemIndex (k : Nat) : Option Nat :=
  match n.place with
  | .tree x => n.doc.itemIndex k x
  | .attr x i => (n.doc.itemIndex k x).map (· + 1 + i)
  | .ns .. => some 0

def nodeParentList : List Node :=
  match n.place with
  | .tree x => (n.doc.nodeParentList x).map n.doc.tree
  | _ => []

def nodeAncestors (k : Nat) : Option (List Node) :=
  match n.place with
  | .tree x => (n.doc.nodeAncestors k x).map (·.map n.doc.tree)
  | _ => some []

def nodeAncestorsOrSelf (k : Nat) : Option (List Node) := (n.nodeAncestors k).map (n :: ·)

def nodeDescendants (k : Nat) : Option (List Node) :=
  match n.place with
  | .tree x => (n.doc.nodeDescendants k x).map (·.map n.doc.tree)
  | _ => some []

def nodePrecedingSiblings (k : Nat) : Option (List Node) :=
  match n.place with
  | .tree x => (n.doc.nodePrecedingSiblings k x).map (·.map n.doc.tree)
  | .attr x i => some (n.doc.attrs x (List.range i).reverse)
  | .ns .. => some []

def nodeFollowingSiblings : List Node := n.itemNext

/-- The loop goes from the first attribute up to the element. -/
def nodePreceding (k : Nat) : Option (List Node) :=
  match n.place with
  | .tree x => (n.doc.nodePreceding k x).map (·.map n.doc.tree)
  | .attr x i =>
    (n.doc.precLoop k x (-1) (-1)).map
      (n.doc.attrs x (List.range i).reverse ++ ·.map n.doc.tree)
  | .ns .. => some []

def nodeFollowing (k : Nat) : Option (List Node) :=
  match n.place with
  | .tree x => (n.doc.nodeFollowing k x).map (·.map n.doc.tree)
  | .attr x _ => (n.doc.gonext k x).map (n.itemNext ++ ·.map n.doc.tree)
  | .ns .. => some []

end Node

/-! ## Expressions -/

inductive Axis where
  | self
  | child
  | descendant
  | descendantOrSelf
  | parent
  | ancestor
  | ancestorOrSelf
  | precedingSibling
  | followingSibling
  | preceding
  | following
  | attr
  | nsnode
  deriving DecidableEq, Repr

def Axis.isForward : Axis → Bool
  | .child | .descendant | .attr | .self | .descendantOrSelf | .followingSibling
  | .following | .nsnode => true
  | _ => false

/-- `compile_axis` -/
def Axis.nodes (axis : Axis) (k : Nat) (citem : Node) : Option (List Node) :=
  match axis with
  | .self => some [citem]
  | .child => some citem.itemChildren
  | .descendant => citem.nodeDescendants k
  | .descendantOrSelf => (citem.nodeDescendants k).map (citem :: ·)
  | .parent => some citem.nodeParentList
  | .ancestor => citem.nodeAncestors k
  | .ancestorOrSelf => citem.nodeAncestorsOrSelf k
  | .precedingSibling => citem.nodePrecedingSiblings k
  | .followingSibling => some citem.nodeFollowingSiblings
  | .preceding => citem.nodePreceding k
  | .following => citem.nodeFollowing k
  | .attr => some citem.itemAttributes
  | .nsnode => some citem.itemNamespaces

inductive Kind where
  | document
  | element
  | attribute
  | comment
  | text
  | any
  deriving DecidableEq, Repr

inductive Test where
  | kind (kind : Kind)
  | name (nsuri localname : Option Str)
  deriving DecidableEq, Repr

/-- `compile_test` -/
def Test.holds (test : Test) (axis : Axis) (node : Node) : Bool :=
  let type := if axis = .attr then .attribute else .item .element
  match test with
  | .kind .document => node.itemType = .item .document
  | .kind .element => node.itemType = .item .element
  | .kind .attribute => node.itemType = .attribute
  | .kind .comment => node.itemType = .item .comment
  | .kind .text => node.itemType = .item .text
  | .kind .any => true
  | .name (some nsuri) (some localname) =>
    node.itemType = type && node.itemNsuri = nsuri && node.itemLocalname = localname
  | .name none (some localname) => node.itemType = type && node.itemLocalname = localname
  | .name (some nsuri) none => node.itemType = type && node.itemNsuri = nsuri
  | .name none none => node.itemType = type

/-- The value of a variable: that of its `select` attribute, or a document with its content. -/
inductive Variable where
  | select (value : List Node)
  | content (doc : Doc)

/-- The expressions that steps are made of. A predicate and any other expression is what it
computes from the context item, its position and the number of items. -/
inductive Expr where
  | root
  | nodeTest (axis : Axis) (test : Test)
  | filter (left : Expr) (predicate : Node → Nat → Nat → Bool)
  | varRef (target : Variable)
  | step (left right : Expr)
  | other (value : Node → Nat → Nat → List Node)

/-- `is_expr_doc_order` -/
def Expr.isDocOrder : Expr → Bool
  | .step .. | .nodeTest .. | .root => true
  | .filter (.nodeTest ..) _ => true
  | .filter .. => false
  | .varRef (.content _) => true
  | .varRef (.select _) => false
  | .other _ => false

/-! ## The functions of the library -/

def filter3a (f : Node → Nat → Nat → Bool) : List Node → Nat → Nat → List Node
  | [], _, _ => []
  | node :: lst, pos, total =>
    if f node pos (total + (lst.length + 1)) then node :: filter3a f lst (pos + 1) (total + 1)
    else filter3a f lst (pos + 1) (total + 1)

def filter3 (f : Node → Nat → Nat → Bool) (lst : List Node) : List Node := filter3a f lst 1 0

def apmap3a (f : Node → Nat → Nat → Option (List Node)) :
    List Node → Nat → Nat → Option (List Node)
  | [], _, _ => some []
  | node :: lst, pos, total => do
    let first ← f node pos (total + (lst.length + 1))
    let rest ← apmap3a f lst (pos + 1) (total + 1)
    return first ++ rest

def apmap3 (f : Node → Nat → Nat → Option (List Node)) (lst : List Node) : Option (List Node) :=
  apmap3a f lst 1 0

/-- `check_node` returns the sequence: there are no atomic values in it. -/
def pathResult (lst : List Node) : List Node := lst

def docorderSort (k : Nat) (lst : List Node) : Option (List Node) :=
  sortBy (fun k node => node.itemIndex k) k lst

def pathResultSort (k : Nat) (lst : List Node) : Option (List Node) := docorderSort k lst

/-! ## The code of an expression -/

namespace Expr

/-- `compile_expression`. An axis in reverse gives its nodes from the nearest one on, and the
positions of a predicate count in this order. -/
def eval (k : Nat) : Expr → Node → Nat → Nat → Option (List Node)
  | .root, citem, _, _ => citem.itemRoot.map ([·])
  | .nodeTest axis test, citem, _, _ =>
    if axis.isForward then (axis.nodes k citem).map fun lst => lst.filter (test.holds axis)
    else (axis.nodes k citem).map fun lst => (lst.filter (test.holds axis)).reverse
  | .filter (.nodeTest axis test) predicate, citem, _, _ =>
    if axis.isForward then
      (axis.nodes k citem).map fun lst => filter3 predicate (lst.filter (test.holds axis))
    else
      (axis.nodes k citem).map fun lst => (filter3 predicate (lst.filter (test.holds axis))).reverse
  | .filter left predicate, citem, cpos, csize =>
    (eval k left citem cpos csize).map (filter3 predicate)
  | .varRef (.select value), _, _, _ => some value
  | .varRef (.content doc), _, _, _ => some [doc.tree 0]
  | .other value, citem, cpos, csize => some (value citem cpos csize)
  | .step left right, citem, cpos, csize => do
    let lst ← eval k left citem cpos csize
    let nodes ← apmap3 (eval k right) lst
    if left.isDocOrder && right.isDocOrder then return pathResult nodes
    else pathResultSort k nodes

/-- The sequence that the code of a step puts together. -/
def stepNodes (k : Nat) (left right : Expr) (citem : Node) (cpos csize : Nat) :
    Option (List Node) :=
  (eval k left citem cpos csize).bind (apmap3 (eval k right))

end Expr

end Xml
end NReduce
