import NReduce.Xml.Items

/-!
# NReduce.Xml.Axes

The axes of XPath and the document order (`xslt.elc`, `compute_index` in `xml.elc`). The functions
of the source follow the links between the nodes and have no bound; here each has a number of
calls that it may make below it, and it returns `none` when these are used up.
-/

namespace NReduce
namespace Xml

namespace Doc

variable (d : Doc)

def nodeParentList (node : Nat) : List Nat :=
  let parent :=
    if d.type node = .element then d.parent node
    else if d.type node = .text then d.parent node
    else none
  parent.toList

def nodeAncestors : Nat → Nat → Option (List Nat)
  | 0, _ => none
  | k + 1, node =>
    if d.type node = .element then
      match d.parent node with
      | some parent => (nodeAncestors k parent).map (parent :: ·)
      | none => some []
    else some []

/-! `node_descendants`: `next` is what comes behind the nodes of the list. -/

mutual

def nodeDescList : Nat → List Nat → List Nat → Option (List Nat)
  | 0, _, _ => none
  | _ + 1, [], next => some next
  | k + 1, node :: lst, next =>
    ((nodeDescList k lst next).bind (descLoop k node ·)).map (node :: ·)

def descLoop : Nat → Nat → List Nat → Option (List Nat)
  | 0, _, _ => none
  | k + 1, node, next =>
    if d.type node = .element then nodeDescList k (d.children node) next
    else if d.type node = .document then nodeDescList k (d.children node) next
    else some next

end

def nodeDescendants (k node : Nat) : Option (List Nat) := d.descLoop k node []

def nodePrecedingSiblings : Nat → Nat → Option (List Nat)
  | 0, _ => none
  | k + 1, node =>
    match d.prev node with
    | some prev => (nodePrecedingSiblings k prev).map (prev :: ·)
    | none => some []

def nodeFollowingSiblings (node : Nat) : List Nat := d.next node

/-! `node_preceding`: a walk from a node to the one before it. The level is the depth relative to
the node where it began, and a parent above the levels that are done is an ancestor of that node. -/

mutual

def precLast : Nat → Nat → Int → Int → Option (List Nat)
  | 0, _, _, _ => none
  | k + 1, node, level, done =>
    match (d.children node).getLast? with
    | some lastchild => precLast k lastchild (level + 1) done
    | none => (precLoop k node level done).map (node :: ·)

def precLoop : Nat → Nat → Int → Int → Option (List Nat)
  | 0, _, _, _ => none
  | k + 1, node, level, done =>
    match d.prev node with
    | some prev => precLast k prev level done
    | none =>
      match d.parent node with
      | some parent =>
        let newlevel := level - 1
        let newdone := if newlevel < done then newlevel else done
        let next := precLoop k parent newlevel newdone
        if newlevel < done then next else next.map (parent :: ·)
      | none => some []

end

def nodePreceding (k node : Nat) : Option (List Nat) := d.precLoop k node 0 0

/-! `node_following` -/

mutual

def gonext : Nat → Nat → Option (List Nat)
  | 0, _ => none
  | k + 1, node =>
    match d.next node with
    | next :: _ => traverse k next
    | [] =>
      match d.parent node with
      | some parent => gonext k parent
      | none => some []

def traverse : Nat → Nat → Option (List Nat)
  | 0, _ => none
  | k + 1, node =>
    match d.children node with
    | child :: _ => (traverse k child).map (node :: ·)
    | [] => (gonext k node).map (node :: ·)

end

def nodeFollowing (k node : Nat) : Option (List Nat) := d.gonext k node

/-! ## The document order -/

/-! `compute_index` -/

mutual

def lastDescendant : Nat → Nat → Option Nat
  | 0, _ => none
  | k + 1, node =>
    match (d.children node).getLast? with
    | some lastchild => lastDescendant k lastchild
    | none => (itemIndex k node).map (1 + ·)

def itemIndex : Nat → Nat → Option Nat
  | 0, _ => none
  | k + 1, node =>
    match d.prev node with
    | some prev => lastDescendant k prev
    | none =>
      match d.parent node with
      | some parent => (itemIndex k parent).map (1 + ·)
      | none => some 0

end

/-- The loop of `docorder_sort2`: what goes before the pivot, and what goes after it. -/
def docorderSplit (k pivot : Nat) : List Nat → List Nat → List Nat → Option (List Nat × List Nat)
  | [], before, after => some (before, after)
  | item :: rest, before, after => do
    let i ← d.itemIndex k item
    let j ← d.itemIndex k pivot
    if i < j then docorderSplit k pivot rest (item :: before) after
    else docorderSplit k pivot rest before (item :: after)

def docorderSort : Nat → List Nat → Option (List Nat)
  | 0, _ => none
  | _ + 1, [] => some []
  | k + 1, pivot :: lst => do
    let (before, after) ← d.docorderSplit k pivot lst [] []
    let before ← docorderSort k before
    let after ← docorderSort k after
    return before ++ pivot :: after

end Doc

end Xml
end NReduce
