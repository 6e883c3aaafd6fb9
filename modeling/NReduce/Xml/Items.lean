import Mathlib.Data.List.Basic

/-!
# NReduce.Xml.Items

The nodes of a document (`xml.elc`). The parser ties a node to its parent, its neighbours and its
children by laziness; here a node is known by a number, its place in the list of all nodes, and the
fields that lead to other nodes hold their numbers. An empty list of characters is `nil`.
-/

namespace NReduce
namespace Xml

abbrev Str := List Char

inductive ItemType where
  | element
  | text
  | comment
  | document
  | pi
  deriving DecidableEq, Repr

/-- `mknamespace` -/
structure Namespace where
  nsuri : Str
  nsPrefix : Str
  deriving DecidableEq, Repr

/-- `mkattr`. The parent of an attribute is the element that has it in its list, and the previous
and the next ones are its neighbours there. -/
structure Attr where
  nsuri : Str
  nsPrefix : Str
  localname : Str
  value : Str
  deriving DecidableEq, Repr

/-- `mkitem`, for the nodes of a document -/
structure Item where
  type : ItemType
  value : Str := []
  root : Option Nat := none
  parent : Option Nat := none
  prev : Option Nat := none
  next : List Nat := []
  nsuri : Str := []
  nsPrefix : Str := []
  localname : Str := []
  attributes : List Attr := []
  namespaces : List Namespace := []
  children : List Nat := []
  deriving DecidableEq, Repr

/-- The nodes of a document, which is node 0. -/
structure Doc where
  items : List Item
  deriving DecidableEq, Repr

namespace Doc

def item (d : Doc) (x : Nat) : Item := d.items.getD x { type := .document }

def type (d : Doc) (x : Nat) : ItemType := (d.item x).type

def parent (d : Doc) (x : Nat) : Option Nat := (d.item x).parent

def prev (d : Doc) (x : Nat) : Option Nat := (d.item x).prev

def next (d : Doc) (x : Nat) : List Nat := (d.item x).next

def children (d : Doc) (x : Nat) : List Nat := (d.item x).children

end Doc

/-! ## The constructors -/

def mkelem (root parent prev : Option Nat) (next : List Nat) (nsuri nsPrefix localname : Str)
    (attributes : List Attr) (namespaces : List Namespace) (children : List Nat) : Item :=
  { type := .element, root := root, parent := parent, prev := prev, next := next, nsuri := nsuri,
    nsPrefix := nsPrefix, localname := localname, attributes := attributes,
    namespaces := namespaces, children := children }

def mktext2 (value : Str) (parent prev : Option Nat) (next : List Nat) : Item :=
  { type := .text, value := value, parent := parent, prev := prev, next := next }

def mkcomment2 (value : Str) (parent prev : Option Nat) (next : List Nat) : Item :=
  { type := .comment, value := value, parent := parent, prev := prev, next := next }

def mkpi (root parent prev : Option Nat) (next : List Nat) (localname value : Str) : Item :=
  { type := .pi, value := value, root := root, parent := parent, prev := prev, next := next,
    localname := localname }

/-- The document is its own root. -/
def mkdoc (children : List Nat) : Item :=
  { type := .document, root := some 0, children := children }

/-! ## Names -/

/-- `getNsPrefix1`, with the characters that have been passed in place of their count -/
def getNsPrefix1 : Str → Str → Str
  | [], _ => []
  | c :: str, passed => if c = ':' then passed.reverse else getNsPrefix1 str (c :: passed)

def getNsPrefix (qname : Str) : Str := getNsPrefix1 qname []

def getlocalname1 : Str → Str → Str
  | [], start => start
  | c :: qname, start => if c = ':' then qname else getlocalname1 qname start

def getlocalname (qname : Str) : Str := getlocalname1 qname qname

def xmlns : Str := "xmlns".toList

def xmlnsNs : Str := "http://www.w3.org/2000/xmlns/".toList

def nsLookup1 (nsPrefix : Str) : List Namespace → Str
  | [] => []
  | ns :: lst => if ns.nsPrefix = nsPrefix then ns.nsuri else nsLookup1 nsPrefix lst

/-- A declaration with an empty URI does not end the search. -/
def nsLookup2 (nsPrefix : Str) : List (List Namespace) → Str
  | [] => []
  | lst :: nslists =>
    let nsuri := nsLookup1 nsPrefix lst
    if nsuri ≠ [] then nsuri else nsLookup2 nsPrefix nslists

def nsLookup (nsPrefix : Str) (nslists : List (List Namespace)) : Str :=
  if nsPrefix = xmlns then xmlnsNs else nsLookup2 nsPrefix nslists

end Xml
end NReduce
