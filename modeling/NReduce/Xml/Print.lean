import NReduce.Xml.Forest

/-!
# NReduce.Xml.Print

`xml::print_nodes`: what is written for a list of nodes. `nslists` are the namespaces declared by
the elements around, `next` is what comes behind.
-/

namespace NReduce
namespace Xml

def qname (nsPrefix localname : Str) : Str :=
  if nsPrefix ≠ [] then nsPrefix ++ ':' :: localname else localname

def printAttrs : List Attr → Str → Str
  | [], next => next
  | attr :: lst, next =>
    ' ' :: (qname attr.nsPrefix attr.localname ++ ('=' :: '\x22' :: (attr.value ++
      ('\x22' :: printAttrs lst next))))

/-- A declaration that is in force already is left out. -/
def printNamespaces : List Namespace → List (List Namespace) → Str → Str
  | [], _, next => next
  | cur :: lst, nslists, next =>
    if nsLookup cur.nsPrefix nslists = cur.nsuri then printNamespaces lst nslists next
    else if cur.nsPrefix = [] ∧ cur.nsuri = [] ∧ nsLookup [] nslists ≠ [] then
      printNamespaces lst nslists next
    else
      (if cur.nsPrefix ≠ [] then " xmlns:".toList else " xmlns".toList) ++ (cur.nsPrefix ++
        ('=' :: '\x22' :: (cur.nsuri ++ ('\x22' :: printNamespaces lst nslists next))))

def printNodes : Forest → List (List Namespace) → Str → Str
  | .nil, _, next => next
  | .elem e .nil rest, nslists, next =>
    '<' :: (qname e.nsPrefix e.localname ++ printNamespaces e.namespaces nslists
      (printAttrs e.attributes ('/' :: '>' :: printNodes rest nslists next)))
  | .elem e children rest, nslists, next =>
    '<' :: (qname e.nsPrefix e.localname ++ printNamespaces e.namespaces nslists
      (printAttrs e.attributes ('>' :: printNodes children (e.namespaces :: nslists)
        ('<' :: '/' :: (qname e.nsPrefix e.localname ++ ('>' :: printNodes rest nslists next))))))
  | .leaf (.text value) rest, nslists, next => value ++ printNodes rest nslists next
  | .leaf (.comment value) rest, nslists, next =>
    "<!--".toList ++ (value ++ ("-->".toList ++ printNodes rest nslists next))
  | .leaf (.pi localname value) rest, nslists, next =>
    if value ≠ [] then
      "<?".toList ++ (localname ++ (' ' :: (value ++ ("?>".toList ++ printNodes rest nslists next))))
    else "<?".toList ++ (localname ++ ("?>".toList ++ printNodes rest nslists next))

end Xml
end NReduce
