import NReduce.Xml.Items

/-!
# NReduce.Xml.Parse

`xml::parse`: from the tokens of a document to its nodes. The nodes are numbered as they come, an
element before what it contains.
-/

namespace NReduce
namespace Xml

/-- The `TOKEN_*` constants -/
inductive Tag where
  | startElem
  | endElem
  | text
  | attrName
  | attrValue
  | comment
  | piTarget
  | piContent
  deriving DecidableEq, Repr

structure Token where
  tag : Tag
  value : Str
  deriving DecidableEq, Repr

/-- What `head` and `tail` say about `nil` -/
def nilError (f : String) : String := f ++ ": expected aref or cons, got NIL"

def skipAttrs : List Token → Except String (List Token)
  | [] => .ok []
  | cur :: rest =>
    if cur.tag = .attrName then
      match rest with
      | [] => .error (nilError "tail")
      | _ :: rest2 => skipAttrs rest2
    else .ok (cur :: rest)

def parseAttrs (namespaces : List (List Namespace)) : List Token → Except String (List Attr)
  | [] => .ok []
  | cur :: rest =>
    if cur.tag = .attrName then
      match rest with
      | [] => .error (nilError "head")
      | value :: rest2 => do
        let nsPrefix := getNsPrefix cur.value
        let nsuri := if nsPrefix ≠ [] then nsLookup nsPrefix namespaces else []
        let localname := getlocalname cur.value
        let next ← parseAttrs namespaces rest2
        -- a namespace attribute is skipped
        if nsPrefix = xmlns then return next
        else if nsPrefix = [] ∧ localname = xmlns then return next
        else return ⟨nsuri, nsPrefix, localname, value.value⟩ :: next
    else .ok []

def parseNamespaces : List Token → Except String (List Namespace)
  | [] => .ok []
  | cur :: rest =>
    if cur.tag = .attrName then
      match rest with
      | [] => .error (nilError "head")
      | value :: rest2 => do
        let nsPrefix := getNsPrefix cur.value
        let localname := getlocalname cur.value
        let next ← parseNamespaces rest2
        if nsPrefix = xmlns then return ⟨value.value, localname⟩ :: next
        else if nsPrefix = [] ∧ localname = xmlns then return ⟨value.value, []⟩ :: next
        else return next
    else .ok []

/-- What `parse1` returns: the tokens behind the list of nodes, and the list; the nodes of the list
and below are `items`, the first of which has the number `n` that `parse1` was given. -/
structure Parsed where
  newrest : List Token
  lst : List Nat
  items : List Item
  deriving DecidableEq, Repr

/-- `parse1`. A call gets fewer tokens than the one it is in, so the length of the list bounds the
depth. -/
def parse1 : Nat → List Token → List (List Namespace) → Option Nat → Nat → Option Nat → Nat →
    Except String Parsed
  | 0, _, _, _, _, _, _ => .error "parse1"
  | _ + 1, [], _, _, _, _, _ => .ok ⟨[], [], []⟩
  | k + 1, cur :: rest, namespaces, root, parent, prev, n =>
    match cur.tag with
    | .startElem => do
      let newnamespaces ← parseNamespaces rest
      let augnamespaces := newnamespaces :: namespaces
      let nsPrefix := getNsPrefix cur.value
      let nsuri := nsLookup nsPrefix augnamespaces
      let localname := getlocalname cur.value
      let arest ← skipAttrs rest
      let attributes ← parseAttrs augnamespaces rest
      let elem := n
      let cpr ← parse1 k arest augnamespaces root elem none (n + 1)
      let pr ← parse1 k cpr.newrest namespaces root parent (some elem) (n + 1 + cpr.items.length)
      return ⟨pr.newrest, elem :: pr.lst,
        mkelem root (some parent) prev pr.lst nsuri nsPrefix localname attributes newnamespaces
          cpr.lst :: (cpr.items ++ pr.items)⟩
    | .endElem => .ok ⟨rest, [], []⟩
    | .text => do
      let text := n
      let pr ← parse1 k rest namespaces root parent (some text) (n + 1)
      return ⟨pr.newrest, text :: pr.lst, mktext2 cur.value (some parent) prev pr.lst :: pr.items⟩
    | .comment => do
      let text := n
      let pr ← parse1 k rest namespaces root parent (some text) (n + 1)
      return ⟨pr.newrest, text :: pr.lst,
        mkcomment2 cur.value (some parent) prev pr.lst :: pr.items⟩
    | .piTarget =>
      match rest with
      | [] => .error (nilError "tail")
      | content :: rest =>
        if cur.value = "xml".toList then parse1 k rest namespaces root parent prev n
        else do
          let text := n
          let pr ← parse1 k rest namespaces root parent (some text) (n + 1)
          return ⟨pr.newrest, text :: pr.lst,
            mkpi none (some parent) prev pr.lst cur.value content.value :: pr.items⟩
    | _ => .error "Invalid tag"

def parse (tokens : List Token) : Except String Doc :=
  if tokens = [] then .error "parse: no tokens"
  else do
    let pr ← parse1 (tokens.length + 1) tokens [] (some 0) 0 none 1
    return ⟨mkdoc pr.lst :: pr.items⟩

end Xml
end NReduce
