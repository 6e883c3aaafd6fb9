import NReduce.Logic.Lexing

/-!
# NReduce.Compiler.Lexer

`escape` and `unescape` (`util.c`), and the lexer of ELC (`lexer.l`): its rules with their start
conditions and actions, and `yylex`, which takes one rule after the other until an action returns a
token.

A string is a list of bytes; the NUL behind it is left out. What `strtol` and `atof` make of the text
of a number is not looked at.
-/

namespace NReduce
namespace Compiler
namespace Lexer

open Logic.Lexing

/-! ## util.c -/

/-- The cases of the `switch` in `escape` -/
def escapeByte (c : UInt8) : List UInt8 :=
  if c = 8 then [92, 98]
  else if c = 9 then [92, 116]
  else if c = 10 then [92, 110]
  else if c = 12 then [92, 102]
  else if c = 13 then [92, 114]
  else if c = 34 then [92, 34]
  else if c = 39 then [92, 39]
  else if c = 92 then [92, 92]
  else [c]

def escape (chars : List UInt8) : List UInt8 := chars.flatMap escapeByte

/-- The cases of the `switch` in `unescape`. The NUL and any other byte give nothing. -/
def unescapeByte (c : UInt8) : List UInt8 :=
  if c = 98 then [8]
  else if c = 116 then [9]
  else if c = 110 then [10]
  else if c = 102 then [12]
  else if c = 114 then [13]
  else if c = 34 then [34]
  else if c = 39 then [39]
  else if c = 92 then [92]
  else []

def unescape : List UInt8 → List UInt8
  | [] => []
  | [c] => if c = 92 then [] else [c]
  | c :: c' :: chars =>
    if c = 92 then unescapeByte c' ++ unescape chars else c :: unescape (c' :: chars)

/-! ## lexer.l -/

/-- The start conditions -/
inductive Cond where
  | initial | string | comment | comment2 | intline
  deriving DecidableEq

/-- `yylval.d` -/
inductive Value where
  | char (c : UInt8)
  | strtol (text : List UInt8)
  | atof (text : List UInt8)
  deriving DecidableEq

inductive Token where
  | letrec | in_ | lambda | nil | import_
  | punctuation (c : UInt8)
  | symbol (s : List UInt8)
  | number (d : Value)
  | string (s : List UInt8)
  /-- -1, for a string that is not recognised -/
  | error
  /-- 0, at the end of the text -/
  | eof
  deriving DecidableEq

structure State where
  cond : Cond
  /-- `none` is NULL -/
  lexstring : Option (List UInt8)
  /-- `yylloc.first_line` -/
  firstLine : Nat
  deriving DecidableEq

def State.start (line : Nat) : State := ⟨.initial, none, line⟩

/-- `array_append` to `lexstring` -/
def State.append (s : State) (data : List UInt8) : State :=
  { s with lexstring := s.lexstring.map (· ++ data) }

/-- What `strlen` and `strdup` see of bytes with a NUL among or behind them -/
def cstring (data : List UInt8) : List UInt8 := data.takeWhile (· ≠ 0)

/-- What an action does with `yytext`: it returns a token, or the lexer goes on. -/
abbrev Action := List UInt8 → State → State × Option Token

structure Rule where
  cond : Cond
  pattern : RegularExpression UInt8
  action : Action

section

/-! ### Actions -/

def ignore : Action := fun _ s => (s, none)

def goOn (c : Cond) : Action := fun _ s => ({ s with cond := c }, none)

def newline : Action := fun _ s => ({ s with firstLine := s.firstLine + 1 }, none)

/-- A newline that ends a comment -/
def lineEnd : Action := fun _ s => ({ s with firstLine := s.firstLine + 1, cond := .initial }, none)

def ret (t : Token) : Action := fun _ s => (s, some t)

def retText : Action := fun text s => (s, some (.symbol (cstring text)))

def openString : Action := fun _ s => ({ s with cond := .string, lexstring := some [] }, none)

def closeString : Action := fun _ s =>
  ({ s with cond := .initial, lexstring := none },
    some (.string (cstring ((s.append [0]).lexstring.getD []))))

def put (c : UInt8) : Action := fun _ s => (s.append [c], none)

/-- `yytext[1]` -/
def putSecond : Action := fun text s => (s.append (text.drop 1 |>.take 1), none)

def putText : Action := fun text s => (s.append (cstring text), none)

def blanks : Action := fun text s =>
  ({ s with firstLine := s.firstLine + (cstring text).count 10 }, none)

/-! ### Patterns -/

def bytes : List UInt8 := (List.range 256).map UInt8.ofNat

/-- A literal of printable characters -/
def text (s : String) : List UInt8 := s.toList.map (fun c => UInt8.ofNat c.toNat)

def lit (s : String) : RegularExpression UInt8 := word (text s)

def noneOf (l : List UInt8) : List UInt8 := bytes.filter (· ∉ l)

/-- `.` is any byte but the newline. -/
def dot : RegularExpression UInt8 := oneOf (noneOf [10])

def digit : RegularExpression UInt8 := oneOf (text "0123456789")

def digits : RegularExpression UInt8 := many digit

def hexdigit : RegularExpression UInt8 := oneOf (text "0123456789abcdefABCDEF")

def minus : RegularExpression UInt8 := optional (lit "-")

def idchar : RegularExpression UInt8 :=
  oneOf (text "abcdefghijklmnopqrstuvwxyzABCDEFGHIJKLMNOPQRSTUVWXYZ_?:-")

def ident : RegularExpression UInt8 := idchar * (idchar + (digit + lit "_")).star

/-! ### Rules -/

/-- A character that is written with a backslash, between apostrophes -/
def charLit (c : UInt8) : RegularExpression UInt8 := word [39, 92, c, 39]

def commentRules : List Rule := [
  ⟨.initial, lit "/*", goOn .comment⟩,
  ⟨.comment, (oneOf (noneOf [42, 10])).star, ignore⟩,
  ⟨.comment, many (lit "*") * (oneOf (noneOf [42, 47, 10])).star, ignore⟩,
  ⟨.comment, word [10], newline⟩,
  ⟨.comment, many (lit "*") * lit "/", goOn .initial⟩,
  ⟨.initial, lit "//", goOn .comment2⟩,
  ⟨.comment2, (oneOf (noneOf [10])).star, ignore⟩,
  ⟨.comment2, word [10], lineEnd⟩,
  ⟨.initial, lit "#!", goOn .intline⟩,
  ⟨.intline, (oneOf (noneOf [10])).star, ignore⟩,
  ⟨.intline, word [10], lineEnd⟩]

def stringRules : List Rule := [
  ⟨.string, word [34], closeString⟩,
  ⟨.string, word [92, 110], put 10⟩,
  ⟨.string, word [92, 116], put 9⟩,
  ⟨.string, word [92, 114], put 13⟩,
  ⟨.string, word [92, 98], put 8⟩,
  ⟨.string, word [92, 102], put 12⟩,
  ⟨.string, word [92] * (dot + word [10]), putSecond⟩,
  ⟨.string, many (oneOf (noneOf [92, 34])), putText⟩]

def tokenRules : List Rule := [
  ⟨.initial, lit "letrec", ret .letrec⟩,
  ⟨.initial, lit "in", ret .in_⟩,
  ⟨.initial, lit "!", ret .lambda⟩,
  ⟨.initial, word [92], ret .lambda⟩,
  ⟨.initial, lit "@", ret (.punctuation 64)⟩,
  ⟨.initial, lit "nil", ret .nil⟩,
  ⟨.initial, lit "import", ret .import_⟩,
  ⟨.initial, lit ".", ret (.punctuation 46)⟩,
  ⟨.initial, lit "(", ret (.punctuation 40)⟩,
  ⟨.initial, lit ")", ret (.punctuation 41)⟩,
  ⟨.initial, word [123], ret (.punctuation 123)⟩,
  ⟨.initial, word [125], ret (.punctuation 125)⟩,
  ⟨.initial, lit ",", ret (.punctuation 44)⟩,
  ⟨.initial, lit "+", retText⟩,
  ⟨.initial, lit "-", retText⟩,
  ⟨.initial, lit "*", retText⟩,
  ⟨.initial, lit "/", retText⟩,
  ⟨.initial, lit "%", retText⟩,
  ⟨.initial, lit "=", ret (.punctuation 61)⟩,
  ⟨.initial, lit "==", retText⟩,
  ⟨.initial, lit "!=", retText⟩,
  ⟨.initial, lit "<", retText⟩,
  ⟨.initial, lit "<=", retText⟩,
  ⟨.initial, lit ">", retText⟩,
  ⟨.initial, lit ">=", retText⟩,
  ⟨.initial, lit "<<", retText⟩,
  ⟨.initial, lit ">>", retText⟩,
  ⟨.initial, lit "&", retText⟩,
  ⟨.initial, lit "|", retText⟩,
  ⟨.initial, lit "^", retText⟩,
  ⟨.initial, lit "~", retText⟩,
  ⟨.initial, lit "&&", ret (.symbol (text "and"))⟩,
  ⟨.initial, lit "||", ret (.symbol (text "or"))⟩,
  ⟨.initial, lit "++", ret (.symbol (text "append"))⟩,
  ⟨.initial, charLit 34, ret (.number (.char 34))⟩,
  ⟨.initial, charLit 39, ret (.number (.char 39))⟩,
  ⟨.initial, charLit 110, ret (.number (.char 10))⟩,
  ⟨.initial, charLit 116, ret (.number (.char 9))⟩,
  ⟨.initial, charLit 114, ret (.number (.char 13))⟩,
  ⟨.initial, charLit 98, ret (.number (.char 8))⟩,
  ⟨.initial, charLit 103, ret (.number (.char 12))⟩,
  ⟨.initial, ident, retText⟩,
  ⟨.initial, word [39] * (dot * word [39]), fun text s => (s, some (.number (.char (text.getD 1 0))))⟩,
  ⟨.initial, lit "0" * (oneOf (text "xX") * many hexdigit),
    fun text s => (s, some (.number (.strtol text)))⟩,
  ⟨.initial, minus * (digits * (lit "." * digits)),
    fun text s => (s, some (.number (.atof text)))⟩,
  ⟨.initial, minus * digits, fun text s => (s, some (.number (.atof text)))⟩,
  ⟨.initial, many (oneOf [32, 10, 9]), blanks⟩,
  ⟨.initial, dot, ret .error⟩]

/-- The rules in their order -/
def rules : List Rule :=
  commentRules ++ ⟨.initial, word [34], openString⟩ :: stringRules ++ tokenRules

end

/-- The rule that is taken, and the length of `yytext` -/
def nextRule (s : State) (text : List UInt8) : Option (Rule × Nat) :=
  choose Rule.pattern text (rules.filter (fun r => r.cond = s.cond))

/-- `yylex`, for a number of rules. A byte that no rule matches is skipped. -/
def yylexFrom : Nat → State → List UInt8 → Option (Token × State × List UInt8)
  | 0, _, _ => none
  | _ + 1, s, [] => some (.eof, s, [])
  | k + 1, s, c :: text =>
    match nextRule s (c :: text) with
    | none => yylexFrom k s text
    | some (r, n) =>
      match r.action ((c :: text).take n) s with
      | (s', some t) => some (t, s', (c :: text).drop n)
      | (s', none) => yylexFrom k s' ((c :: text).drop n)

/-- Each rule takes at least one byte, so there are no more of them than bytes. -/
def yylex (s : State) (text : List UInt8) : Option (Token × State × List UInt8) :=
  yylexFrom (text.length + 1) s text

end Lexer
end Compiler
end NReduce
