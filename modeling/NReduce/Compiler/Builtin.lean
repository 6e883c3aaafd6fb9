import Mathlib.Data.List.Basic

/-!
# NReduce.Compiler.Builtin

The builtin functions (`B_*` in `runtime.h`) with the columns of `builtin_info` that the compiler
and the interpreter read. The order of the constructors is the order of the table, so the
position of a builtin is its number.
-/

namespace NReduce
namespace Compiler

inductive Bif where
  | add | subtract | multiply | divide | mod
  | eq | ne | lt | le | gt | ge
  | bitshl | bitshr | bitand | bitor | bitxor | bitnot
  | sqrt | floor | ceil | ntos | ston
  | if_ | and | or | not
  | cons | head | tail | arraysize | arrayskip
  | arrayitem | arrayPrefix | strcmp1 | teststring | testarray
  | seq | par | parhead
  | openfd | readchunk | readdir1 | fexists | fisdir
  | opencon | readcon | startlisten | accept
  | nchars | print | printarray | printend
  | error | getoutput | genid | exit
  | abs | jnew | jcall | iscons
  | cxslt1 | cache
  | connpair | mkconn | spawn | compile
  | isspace
  | lcons | restring | buildarray | parsexmlfile | genstring
  deriving DecidableEq, Repr

/-- A row of `builtin_info`: the number of arguments, how many of the first of them are evaluated
before the call, whether the result is always in weak head normal form (`ALWAYS_VALUE`), and
whether the builtin may run outside a frame of its own (`PURE`). -/
structure Builtin where
  name : String
  nargs : Nat
  nstrict : Nat
  reswhnf : Bool
  pure : Bool
  deriving DecidableEq, Repr

def builtinInfo : Bif → Builtin
  | .add => ⟨"+", 2, 2, true, true⟩
  | .subtract => ⟨"-", 2, 2, true, true⟩
  | .multiply => ⟨"*", 2, 2, true, true⟩
  | .divide => ⟨"/", 2, 2, true, true⟩
  | .mod => ⟨"%", 2, 2, true, true⟩
  | .eq => ⟨"==", 2, 2, true, true⟩
  | .ne => ⟨"!=", 2, 2, true, true⟩
  | .lt => ⟨"<", 2, 2, true, true⟩
  | .le => ⟨"<=", 2, 2, true, true⟩
  | .gt => ⟨">", 2, 2, true, true⟩
  | .ge => ⟨">=", 2, 2, true, true⟩
  | .bitshl => ⟨"<<", 2, 2, true, true⟩
  | .bitshr => ⟨">>", 2, 2, true, true⟩
  | .bitand => ⟨"&", 2, 2, true, true⟩
  | .bitor => ⟨"|", 2, 2, true, true⟩
  | .bitxor => ⟨"^", 2, 2, true, true⟩
  | .bitnot => ⟨"~", 1, 1, true, true⟩
  | .sqrt => ⟨"sqrt", 1, 1, true, true⟩
  | .floor => ⟨"floor", 1, 1, true, true⟩
  | .ceil => ⟨"ceil", 1, 1, true, true⟩
  | .ntos => ⟨"ntos", 1, 1, true, true⟩
  | .ston => ⟨"_ston", 1, 1, true, true⟩
  | .if_ => ⟨"if", 3, 1, false, true⟩
  | .and => ⟨"and", 2, 2, true, true⟩
  | .or => ⟨"or", 2, 2, true, true⟩
  | .not => ⟨"not", 1, 1, true, true⟩
  | .cons => ⟨"cons", 2, 0, true, true⟩
  | .head => ⟨"head", 1, 1, false, true⟩
  | .tail => ⟨"tail", 1, 1, false, true⟩
  | .arraysize => ⟨"arraysize", 1, 1, false, true⟩
  | .arrayskip => ⟨"arrayskip", 2, 2, false, true⟩
  | .arrayitem => ⟨"arrayitem", 2, 2, false, true⟩
  | .arrayPrefix => ⟨"arrayprefix", 3, 2, false, true⟩
  | .strcmp1 => ⟨"arraystrcmp", 2, 2, true, true⟩
  | .teststring => ⟨"teststring", 1, 0, true, true⟩
  | .testarray => ⟨"testarray", 2, 0, true, true⟩
  | .seq => ⟨"seq", 2, 1, false, false⟩
  | .par => ⟨"par", 2, 0, false, false⟩
  | .parhead => ⟨"parhead", 2, 1, false, false⟩
  | .openfd => ⟨"openfd", 1, 1, false, false⟩
  | .readchunk => ⟨"readchunk", 2, 1, false, false⟩
  | .readdir1 => ⟨"_readdir", 1, 1, false, false⟩
  | .fexists => ⟨"_exists", 1, 1, true, false⟩
  | .fisdir => ⟨"_isdir", 1, 1, true, false⟩
  | .opencon => ⟨"_connect", 3, 2, true, false⟩
  | .readcon => ⟨"readcon", 2, 1, true, false⟩
  | .startlisten => ⟨"_listen", 1, 1, true, false⟩
  | .accept => ⟨"accept", 2, 1, true, false⟩
  | .nchars => ⟨"nchars", 1, 1, true, true⟩
  | .print => ⟨"print", 2, 2, false, false⟩
  | .printarray => ⟨"printarray", 3, 3, false, false⟩
  | .printend => ⟨"printend", 1, 1, false, false⟩
  | .error => ⟨"_error", 1, 1, true, false⟩
  | .getoutput => ⟨"getoutput", 1, 1, true, false⟩
  | .genid => ⟨"genid", 1, 1, true, false⟩
  | .exit => ⟨"exit", 1, 1, true, false⟩
  | .abs => ⟨"abs", 1, 1, true, true⟩
  | .jnew => ⟨"_jnew", 2, 2, true, false⟩
  | .jcall => ⟨"_jcall", 3, 3, true, false⟩
  | .iscons => ⟨"iscons", 1, 1, true, true⟩
  | .cxslt1 => ⟨"_cxslt", 2, 2, true, true⟩
  | .cache => ⟨"_cache", 2, 1, true, false⟩
  | .connpair => ⟨"connpair", 1, 1, true, false⟩
  | .mkconn => ⟨"mkconn", 1, 1, true, false⟩
  | .spawn => ⟨"_spawn", 2, 2, true, false⟩
  | .compile => ⟨"_compile", 2, 2, true, true⟩
  | .isspace => ⟨"isspace", 1, 1, true, true⟩
  | .lcons => ⟨"lcons", 2, 0, true, true⟩
  | .restring => ⟨"restring", 1, 1, true, true⟩
  | .buildarray => ⟨"buildarray", 3, 2, true, true⟩
  | .parsexmlfile => ⟨"parsexmlfile", 1, 1, true, true⟩
  | .genstring => ⟨"genstring", 1, 1, true, true⟩

theorem nstrict_le_nargs (b : Bif) : (builtinInfo b).nstrict ≤ (builtinInfo b).nargs := by
  cases b <;> decide

theorem nargs_pos (b : Bif) : 0 < (builtinInfo b).nargs := by
  cases b <;> decide

end Compiler
end NReduce
