import NReduce.Xml.Parse

/-!
# NReduce.Xml.Tokenize

`xml::tokenize`, with one function for each state of the tokenizer. In place of the start of a token
and the count of its characters they get the characters themselves, the last one first. The tokens
are made as they are asked for; an error stands for a list that ends in one.
-/

namespace NReduce
namespace Xml

/-- The characters for which `isspace` holds -/
def isspace (c : Char) : Bool :=
  c = ' ' || c = '\t' || c = '\n' || c = '\x0b' || c = '\x0c' || c = '\r'

def unexpectedEnd (what : String) : String := "XML parse error: unexpected end of input " ++ what

/-- What the state functions return: the tokens to come. -/
abbrev Tokens := Except String (List Token)

def emit (tag : Tag) (value : Str) (next : Tokens) : Tokens := next.map (⟨tag, value⟩ :: ·)

mutual

def tokenizeMain (stream passed : Str) : Tokens :=
  match stream with
  | [] => .ok []
  | c :: rest =>
    if c = '<' then
      if passed.length > 0 then emit .text passed.reverse (tokenizeNamestart rest)
      else tokenizeNamestart rest
    else tokenizeMain rest (c :: passed)
termination_by 3 * stream.length + 1

def tokenizePitarget (stream passed : Str) : Tokens :=
  match stream with
  | [] => .error (unexpectedEnd "in processing instruction")
  | c :: rest =>
    if c = ' ' then emit .piTarget passed.reverse (tokenizePicontent rest [])
    else if c = '?' then emit .piTarget passed.reverse (tokenizePiend2 rest)
    else tokenizePitarget rest (c :: passed)
termination_by 3 * stream.length

def tokenizePicontent (stream passed : Str) : Tokens :=
  match stream with
  | [] => .error (unexpectedEnd "in processing instruction")
  | c :: rest =>
    if c = '?' then tokenizePiend1 rest (c :: passed) else tokenizePicontent rest (c :: passed)
termination_by 3 * stream.length

def tokenizePiend1 (stream passed : Str) : Tokens :=
  match stream with
  | [] => .error (unexpectedEnd "in processing instruction")
  | c :: rest =>
    if c = '>' then emit .piContent (passed.drop 1).reverse (tokenizeSkipspace rest)
    else tokenizePicontent rest (c :: passed)
termination_by 3 * stream.length

def tokenizePiend2 (stream : Str) : Tokens :=
  match stream with
  | [] => .error (unexpectedEnd "in processing instruction")
  | c :: rest =>
    if c = '>' then emit .piContent [] (tokenizeSkipspace rest)
    else .error "XML parse error: unexpected character in processing instruction"
termination_by 3 * stream.length

def tokenizeSkipspace (stream : Str) : Tokens :=
  match stream with
  | [] => .ok []
  | c :: rest => if isspace c then tokenizeSkipspace rest else tokenizeMain (c :: rest) []
termination_by 3 * stream.length + 2

def tokenizeNamestart (stream : Str) : Tokens :=
  match stream with
  | [] => .error (unexpectedEnd "at start of element name")
  | c :: rest =>
    if c = '/' then tokenizeEndname rest []
    else if c = '?' then tokenizePitarget rest []
    else if c = '!' then tokenizeComment1 rest
    else tokenizeName (c :: rest) []
termination_by 3 * stream.length + 3

/-- The stream began with an exclamation mark. -/
def tokenizeComment1 (stream : Str) : Tokens :=
  match stream with
  | [] => .error (unexpectedEnd "at start of comment")
  | c :: rest => if c = '-' then tokenizeComment2 rest else tokenizeName ('!' :: c :: rest) []
termination_by 3 * stream.length + 5

def tokenizeComment2 (stream : Str) : Tokens :=
  match stream with
  | [] => .error (unexpectedEnd "at start of comment")
  | c :: rest => if c = '-' then tokenizeComment rest [] else tokenizeName ('!' :: '-' :: c :: rest) []
termination_by 3 * stream.length + 7

def tokenizeComment (stream passed : Str) : Tokens :=
  match stream with
  | [] => .error (unexpectedEnd "in comment")
  | c :: rest =>
    if c = '-' then tokenizeCommentEnd1 rest (c :: passed) else tokenizeComment rest (c :: passed)
termination_by 3 * stream.length

def tokenizeCommentEnd1 (stream passed : Str) : Tokens :=
  match stream with
  | [] => .error (unexpectedEnd "in comment")
  | c :: rest =>
    if c = '-' then tokenizeCommentEnd2 rest (c :: passed) else tokenizeComment rest (c :: passed)
termination_by 3 * stream.length

def tokenizeCommentEnd2 (stream passed : Str) : Tokens :=
  match stream with
  | [] => .error (unexpectedEnd "in comment")
  | c :: rest =>
    if c = '>' then emit .comment (passed.drop 2).reverse (tokenizeMain rest [])
    else tokenizeComment rest (c :: passed)
termination_by 3 * stream.length

def tokenizeName (stream passed : Str) : Tokens :=
  match stream with
  | [] => .error (unexpectedEnd "in open tag: " ++ String.ofList passed.reverse)
  | c :: rest =>
    if c = '>' then emit .startElem passed.reverse (tokenizeMain rest [])
    else if c = '/' then emit .startElem passed.reverse (tokenizeLeafend rest)
    else if isspace c then emit .startElem passed.reverse (tokenizeAttrsearch rest)
    else tokenizeName rest (c :: passed)
termination_by 3 * stream.length

def tokenizeEndname (stream passed : Str) : Tokens :=
  match stream with
  | [] => .error (unexpectedEnd "in close tag: " ++ String.ofList passed.reverse)
  | c :: rest =>
    if c = '>' then emit .endElem [] (tokenizeMain rest [])
    else tokenizeEndname rest (c :: passed)
termination_by 3 * stream.length

def tokenizeLeafend (stream : Str) : Tokens :=
  match stream with
  | [] => .error (unexpectedEnd "in standalone tag")
  | c :: rest =>
    if c = '>' then emit .endElem [] (tokenizeMain rest [])
    else .error ("XML parse error: invalid character after / in open tag: " ++
      String.ofList (c :: rest))
termination_by 3 * stream.length

def tokenizeAttrsearch (stream : Str) : Tokens :=
  match stream with
  | [] => .error (unexpectedEnd "in open tag")
  | c :: rest =>
    if c = '>' then tokenizeMain rest []
    else if c = '/' then tokenizeLeafend rest
    else if isspace c then tokenizeAttrsearch rest
    else tokenizeAttrname rest [c]
termination_by 3 * stream.length

def tokenizeAttrname (stream passed : Str) : Tokens :=
  match stream with
  | [] => .error (unexpectedEnd "in attribute name")
  | c :: rest =>
    if c = '=' || isspace c then emit .attrName passed.reverse (tokenizeEqsearch (c :: rest))
    else tokenizeAttrname rest (c :: passed)
termination_by 3 * stream.length + 1

def tokenizeEqsearch (stream : Str) : Tokens :=
  match stream with
  | [] => .error (unexpectedEnd "in attribute")
  | c :: rest =>
    if c = '=' then tokenizeValsearch rest
    else if isspace c then tokenizeEqsearch rest
    else .ok []
termination_by 3 * stream.length

def tokenizeValsearch (stream : Str) : Tokens :=
  match stream with
  | [] => .error (unexpectedEnd "in attribute value")
  | c :: rest =>
    if c = '>' then tokenizeMain rest []
    else if c = '\x22' then tokenizeValueDq rest []
    else if c = '\x27' then tokenizeValueSq rest []
    else if isspace c then tokenizeValsearch rest
    else .ok []
termination_by 3 * stream.length

def tokenizeValueDq (stream passed : Str) : Tokens :=
  match stream with
  | [] => .error (unexpectedEnd "in attribute value")
  | c :: rest =>
    if c = '\x22' then emit .attrValue passed.reverse (tokenizeAttrsearch rest)
    else tokenizeValueDq rest (c :: passed)
termination_by 3 * stream.length

def tokenizeValueSq (stream passed : Str) : Tokens :=
  match stream with
  | [] => .error (unexpectedEnd "in attribute value")
  | c :: rest =>
    if c = '\x27' then emit .attrValue passed.reverse (tokenizeAttrsearch rest)
    else tokenizeValueSq rest (c :: passed)
termination_by 3 * stream.length

end

def tokenize (stream : Str) : Tokens := tokenizeSkipspace stream

end Xml
end NReduce
