import NReduce.Bytecode.Instr

/-!
# NReduce.Bytecode.Emit

The compilation schemes of `bytecode.c`: `C` builds an expression without evaluating it, `E` starts
its evaluation, `R` computes the result of a supercombinator, and `S` lays out the arguments of a
tail call. Each of them takes the map `p` from variable names to stack indexes and the number `n`
of slots in use, and appends instructions.

An emission maps the state of the compiler to the instructions it adds and the state after them; it
is `none` where the C code aborts, fails an assertion or exits with a message. Labels are distances,
so the patching of `LABEL` is the length of the code in between.
-/

namespace NReduce
namespace Bytecode

open Compiler

/-- The part of `struct compilation` that changes: the stack picture and the string table. -/
structure CompState where
  si : List Status
  invalid : Bool := false
  strings : List String
  deriving DecidableEq

abbrev Emit := CompState → Option (List Instr × CompState)

namespace Emit

def nothing : Emit := fun s => some ([], s)

/-- One emission after another. -/
def andThen (a b : Emit) : Emit := fun s => do
  let (c1, s1) ← a s
  let (c2, s2) ← b s1
  return (c1 ++ c2, s2)

/-- `add_instruction` -/
def op (o : Op) : Emit := fun s =>
  if s.invalid then none
  else do
    let si' ← o.effect s.si
    return ([⟨o, s.si.length, s.si⟩], { s with si := si'.si, invalid := si'.invalid })

/-- `f` with `(int)d`. There is no code where the conversion traps. -/
def int (d : Double) (f : Int → Emit) : Emit := fun s => (toInt d).bind (fun k => f k s)

/-- The macro `SPARK`; `a` counts from the top of the stack. -/
def spark (a : Nat) : Emit := fun s =>
  if a < s.si.length then
    if s.si[s.si.length - 1 - a]? = some .unknown then op (.spark (s.si.length - 1 - a)) s
    else some ([], s)
  else none

/-- The macro `EVAL` -/
def eval (a : Nat) : Emit := fun s =>
  if a < s.si.length then
    if s.si[s.si.length - 1 - a]? = some .evaluated then some ([], s)
    else op (.eval (s.si.length - 1 - a)) s
  else none

/-- The macro `PUSH` -/
def push (a : Nat) : Emit := fun s =>
  if a < s.si.length then op (.push (s.si.length - 1 - a)) s else none

/-- The macro `UPDATE` -/
def update (a : Nat) : Emit := fun s =>
  if a < s.si.length then op (.update (s.si.length - 1 - a)) s else none

/-- `EVAL` of the topmost `k` slots, the top first. -/
def evals : Nat → Nat → Emit
  | 0, _ => nothing
  | k + 1, a => andThen (eval a) (evals k (a + 1))

/-- The macro `BIF` -/
def builtin (b : Bif) : Emit := andThen (evals (builtinInfo b).nstrict 0) (op (.bif b))

/-- `add_string` and `PUSHSTRING` -/
def pushString (v : String) : Emit := fun s =>
  match s.strings.idxOf? v with
  | some pos => op (.pushstring pos) s
  | none => op (.pushstring s.strings.length) { s with strings := s.strings ++ [v] }

end Emit

section Schemes

variable (scs : List Scomb)

/-- `function_nargs` -/
def functionNargs : Fn → Option Nat
  | .bif b => some (builtinInfo b).nargs
  | .sc i => (scs[i]?).map Scomb.nargs

/-- `function_strictin` -/
def functionStrictin (fno : Fn) (argno : Nat) : Option Bool :=
  match fno with
  | .bif b => some (decide (argno < (builtinInfo b).nstrict))
  | .sc i => do
    let sc ← scs[i]?
    let strictin ← sc.strictin
    strictin[argno]?

/-- `snode_fno` -/
def snodeFno : Snode → Option Fn
  | .builtin b => some (.bif b)
  | .scref i => some (.sc i)
  | _ => none

/-- The loop of `have_reqsparks` and `have_resvals`: every argument from number `i` on that `fno`
is strict in has at least the status `want`. -/
def haveStatus (want : Status) (fno : Fn) (si : List Status) : Nat → Nat → Option Bool
  | 0, _ => some true
  | k + 1, i => do
    let st ← si[si.length - 1 - i]?
    if st.toNat < want.toNat then
      let strict ← functionStrictin scs fno i
      if strict then some false else haveStatus want fno si k (i + 1)
    else haveStatus want fno si k (i + 1)

/-- The macro `JFUN` -/
def emitJfun (fno : Fn) : Emit := fun s => do
  let nargs ← functionNargs scs fno
  if nargs ≤ s.si.length then
    let resvals ← haveStatus scs .evaluated fno s.si nargs 0
    if resvals then Emit.op (.jfun fno 2) s
    else
      let reqsparks ← haveStatus scs .sparked fno s.si nargs 0
      if reqsparks then Emit.op (.jfun fno 1) s else Emit.op (.jfun fno 0) s
  else none

/-- `domkframe` for a supercombinator `i` without arguments; `follow` compiles another one that is
its whole body. -/
def constFrame (follow : Nat → Emit) (i : Nat) : Snode → Emit
  | .number d => Emit.op (.pushnumber d)
  | .string v => Emit.pushString v
  | .nil => Emit.op .pushnil
  | .scref j =>
    match functionNargs scs (.sc j) with
    | none => fun _ => none
    | some 0 => follow j
    | some (_ + 1) => Emit.op (.mkcap (.sc j) 0)
  | .application _ _ _ | .lambda _ _ | .builtin _ | .symbol _ | .letrec _ _ =>
    Emit.op (.mkframe (.sc i) 0)

/-- `domkframe`. A constant supercombinator whose body is a constant again is followed; `fuel`
bounds how far. -/
def domkframe : Nat → Fn → Nat → Emit
  | 0, _, _ => fun _ => none
  | fuel + 1, .sc i, n =>
    match scs[i]? with
    | none => fun _ => none
    | some sc =>
      if sc.nargs = 0 then
        if n ≠ 0 then fun _ => none else constFrame scs (fun j => domkframe fuel (.sc j) 0) i sc.body
      else Emit.op (.mkframe (.sc i) n)
  | _ + 1, .bif b, n =>
    if b = .cons then if n = 2 then Emit.builtin .cons else fun _ => none
    else Emit.op (.mkframe (.bif b) n)

/-- The map from variable names to stack indexes, in the order of the pushes. -/
abbrev Pmap := List (String × Nat)

/-- `presolve`: the first entry counts. -/
def presolve (p : Pmap) (x : String) : Option Nat := (p.find? (·.1 == x)).map Prod.snd

/-- `letrecs_used`: the number of bindings of `rec` whose names occur in `expr`. -/
def letrecsUsed (used : List String) : Letrec → Nat
  | .done => 0
  | .bind x _ _ next => (if x ∈ used then 1 else 0) + letrecsUsed used next

end Schemes

mutual

/-- `getusage` -/
def getusage : Snode → List String
  | .application l r _ => getusage l ++ getusage r
  | .letrec bs b => getusageB bs ++ getusage b
  | .symbol x => [x]
  | .lambda _ _ | .builtin _ | .scref _ | .nil | .number _ | .string _ => []

def getusageB : Letrec → List String
  | .done => []
  | .bind _ v _ next => getusage v ++ getusageB next

end

/-- The number of applications on the spine. -/
def spineLength : Snode → Nat
  | .application l _ _ => spineLength l + 1
  | _ => 0

/-- The head of the spine. -/
def spineHead : Snode → Snode
  | .application l _ _ => spineHead l
  | e => e

/-- The names of the bindings with the slots they will have. -/
def letrecPmap (n : Nat) : Letrec → Pmap
  | .done => []
  | .bind x _ _ next => (x, n + 1) :: letrecPmap (n + 1) next

section Schemes

variable (scs : List Scomb) (fuel : Nat)

/-- The end of the application case of `E`, after the arguments. -/
def finishE (head : Snode) (m : Nat) : Emit := fun s => do
  let fno ← snodeFno head
  let k ← functionNargs scs fno
  if m = k then
    match fno with
    | .bif b =>
      if (builtinInfo b).pure then
        if (builtinInfo b).reswhnf then Emit.builtin b s
        else Emit.andThen (Emit.builtin b) (Emit.spark 0) s
      else Emit.andThen (domkframe scs fuel fno k) (Emit.eval 0) s
    | .sc _ => Emit.andThen (domkframe scs fuel fno k) (Emit.spark 0) s
  else Emit.andThen (Emit.op (.mkcap fno m)) (Emit.spark 0) s

/-- The end of the application case of `C`. -/
def finishC (head : Snode) (m : Nat) : Emit := fun s => do
  let fno ← snodeFno head
  let k ← functionNargs scs fno
  if m ≤ k then
    if m = k then domkframe scs fuel fno k s else Emit.op (.mkcap fno m) s
  else none

/-- The checks that `E` makes of an application before it compiles the arguments. -/
def checkE (c : Snode) : Emit := fun s => do
  let fno ← snodeFno (spineHead c)
  let k ← functionNargs scs fno
  if spineLength c ≤ k then some ([], s) else none

/-- A reference to a function without arguments. -/
def emitRef (fno : Fn) : Emit := fun s => do
  let k ← functionNargs scs fno
  if k = 0 then domkframe scs fuel fno 0 s else Emit.op (.mkcap fno 0) s

/-- A jump over the code `ct`, which ends in a jump over `cf`; `jmp` makes the first of them. Both
branches start from the state after it, and so does the code that follows. -/
def emitIf (jmp : Nat → Op) (ct cf : Emit) : Emit := fun s => do
  let (_, s1) ← Emit.op (jmp 0) s
  let (code1, s2) ← ct s1
  let (_, s3) ← Emit.op (.jump 0) s2
  let (code2, s4) ← cf { s1 with strings := s3.strings }
  return (⟨jmp (code1.length + 2), s.si.length, s.si⟩ :: code1 ++
    ⟨.jump (code2.length + 1), s2.si.length, s2.si⟩ :: code2,
    { s1 with strings := s4.strings })

/-- `popstatus` and `pushstatus` after the branches of an `if`. -/
def joinStatus (pop : Nat) : Emit := fun s => do
  let si ← popStatus pop s.si
  return ([], { s with si := si ++ [.sparked] })

/-- The supercombinator `item`. -/
def isItem (i : Nat) : Bool := (scs[i]?).any (fun sc => sc.name == "item" && sc.nargs == 2)

mutual

/-- Scheme `C` -/
def compC (p : Pmap) (n : Nat) : Snode → Emit
  | .application l r s =>
    Emit.andThen (compC p n r)
      (Emit.andThen (compArgsC p (n + 1) l)
        (finishC scs fuel (spineHead l) (spineLength (.application l r s))))
  | .builtin b => emitRef scs fuel (.bif b)
  | .scref i => emitRef scs fuel (.sc i)
  | .symbol x => fun s =>
    match presolve p x with
    | some i => if i ≤ n then Emit.push (n - i) s else none
    | none => none
  | .nil => Emit.op .pushnil
  | .number d => Emit.op (.pushnumber d)
  | .string v => Emit.pushString v
  | .letrec bs b =>
    let k := bs.names.length
    let p' := p ++ letrecPmap n bs
    Emit.andThen (compLetrec p' n false k false bs)
      (Emit.andThen (compC p' (n + k) b) (Emit.op (.squeeze 1 k)))
  | .lambda _ _ => fun _ => none

/-- The loop over the arguments in `C`. -/
def compArgsC (p : Pmap) (n : Nat) : Snode → Emit
  | .application l r _ => Emit.andThen (compC p n r) (compArgsC p (n + 1) l)
  | _ => Emit.nothing

/-- Scheme `E` -/
def compE (p : Pmap) (n : Nat) : Snode → Emit
  | .application l r s =>
    let general :=
      Emit.andThen (checkE scs (.application l r s))
        (Emit.andThen (if s then compE p n r else compC p n r)
          (Emit.andThen (compArgsE p (n + 1) l)
            (finishE scs fuel (spineHead l) (spineLength (.application l r s)))))
    match l with
    | .application (.application (.builtin .if_) cond _) truebranch _ =>
      match cond with
      | .application (.application (.builtin .eq) x s1) (.number d) s2 =>
        if isIntegral d then
          Emit.andThen (compE p n x)
            (Emit.andThen (Emit.eval 0)
              (Emit.int d fun k => Emit.andThen
                (emitIf (.jeq · k) (Emit.andThen (Emit.op (.pop 1)) (compE p n r))
                  (Emit.andThen (Emit.op (.pop 1)) (compE p n truebranch)))
                (joinStatus 1)))
        else
          Emit.andThen (compE p n (.application (.application (.builtin .eq) x s1) (.number d) s2))
            (Emit.andThen (Emit.eval 0)
              (Emit.andThen (emitIf .jfalse (compE p n truebranch) (compE p n r)) (joinStatus 0)))
      | cond =>
        Emit.andThen (compE p n cond)
          (Emit.andThen (Emit.eval 0)
            (Emit.andThen (emitIf .jfalse (compE p n truebranch) (compE p n r)) (joinStatus 0)))
    | .application (.builtin .seq) expr1 _ =>
      Emit.andThen (compE p n expr1)
        (Emit.andThen (Emit.eval 0) (Emit.andThen (Emit.op (.pop 1)) (compE p n r)))
    | .application (.scref i) (.number d) _ =>
      if isItem scs i && isIntegral d then
        Emit.int d fun index => Emit.andThen (compE p n r)
          (Emit.andThen (Emit.op (.itemn index false)) (Emit.spark 0))
      else general
    | _ => general
  | .letrec bs b =>
    let k := bs.names.length
    let p' := p ++ letrecPmap n bs
    Emit.andThen (compLetrec p' n true k false bs)
      (Emit.andThen (compE p' (n + k) b) (Emit.op (.squeeze 1 k)))
  | .symbol x => fun s =>
    match presolve p x with
    | some i =>
      if i ≤ n then Emit.andThen (Emit.spark (n - i)) (Emit.push (n - i)) s else none
    | none => none
  | .builtin b => Emit.andThen (emitRef scs fuel (.bif b)) (Emit.spark 0)
  | .scref i => Emit.andThen (emitRef scs fuel (.sc i)) (Emit.spark 0)
  | .nil => Emit.andThen (Emit.op .pushnil) (Emit.spark 0)
  | .number d => Emit.andThen (Emit.op (.pushnumber d)) (Emit.spark 0)
  | .string v => Emit.andThen (Emit.pushString v) (Emit.spark 0)
  | .lambda _ _ => fun _ => none

/-- The loop over the arguments in `E`; also `S2`. -/
def compArgsE (p : Pmap) (n : Nat) : Snode → Emit
  | .application l r s =>
    Emit.andThen (if s then compE p n r else compC p n r) (compArgsE p (n + 1) l)
  | _ => Emit.nothing

/-- `Cletrec`, from one binding on. `k` bindings are left, and `alloced` says that holes have been
made for them. -/
def compLetrec (p : Pmap) (n : Nat) (strictcontext : Bool) (k : Nat) (alloced : Bool) :
    Letrec → Emit
  | .done => Emit.nothing
  | .bind x v s next =>
    let direct := strictcontext && s && letrecsUsed (getusage v) (.bind x v s next) == 0
    if !alloced && direct then
      Emit.andThen (compE p n v) (compLetrec p (n + 1) strictcontext (k - 1) false next)
    else
      let n' := if alloced then n else n + k
      Emit.andThen (if alloced then Emit.nothing else Emit.op (.alloc k))
        (Emit.andThen (if direct then compE p n' v else compC p n' v)
          (Emit.andThen
            (fun s =>
              match presolve p x with
              | some i => if i ≤ n' + 1 then Emit.update (n' + 1 - i) s else none
              | none => none)
            (compLetrec p n' strictcontext (k - 1) true next)))

end

/-! ## Scheme `R` -/

/-- The arguments of an application with their strictness marks, the last argument first. -/
def spineArgs : Snode → List (Snode × Bool)
  | .application l r s => (r, s) :: spineArgs l
  | _ => []

/-- The first loop of `S`: how many of the expressions from number `m` on are arguments that are
already in their place. -/
def skipArgs (p : Pmap) (si : List Status) : Nat → List (Snode × Bool) → Option Nat
  | m, (.symbol x, strict) :: exprs => do
    let i ← presolve p x
    if i = m + 1 then
      let st ← si[m]?
      if strict && st = .unknown then some 0
      else
        let k ← skipArgs p si (m + 1) exprs
        return k + 1
    else some 0
  | _, _ => some 0

/-- The second loop of `S`. -/
def compExprs (p : Pmap) (n : Nat) : List (Snode × Bool) → Emit
  | [] => Emit.nothing
  | (e, strict) :: exprs =>
    Emit.andThen (if strict then compE scs fuel p n e else compC scs fuel p n e)
      (compExprs p (n + 1) exprs)

/-- Scheme `S` -/
def compS (p : Pmap) (n : Nat) (exprs : List (Snode × Bool)) : Emit := fun s => do
  let k ← skipArgs p s.si 0 exprs
  if k < n then
    Emit.andThen (compExprs scs fuel p n (exprs.drop k))
      (Emit.op (.squeeze (exprs.length - k) (n - k))) s
  else compExprs scs fuel p n (exprs.drop k) s

/-- `iscons` -/
def iscons : Snode → Bool
  | .application (.application (.builtin b) _ _) _ _ => b == .cons || b == .lcons
  | _ => false

/-- The elements of a list that is written out, the last first, after its tail. -/
def consExprs : Snode → List (Snode × Bool)
  | .application (.application (.builtin b) x s1) rest s2 =>
    if b == .cons || b == .lcons then consExprs rest ++ [(x, false)]
    else [(.application (.application (.builtin b) x s1) rest s2, false)]
  | e => [(e, false)]

/-- `Ccons` -/
def compCons (p : Pmap) (n : Nat) (c : Snode) : Emit :=
  Emit.andThen (compS scs fuel p n (consExprs c)) (Emit.op (.consn (consExprs c).length))

/-- The assertion that the strict arguments of a builtin have been sparked. -/
def checkSparked (b : Bif) : Emit := fun s =>
  if (builtinInfo b).nstrict ≤ s.si.length ∧
      ∀ argno < (builtinInfo b).nstrict, s.si[s.si.length - 1 - argno]? ≠ some .unknown then
    some ([], s)
  else none

/-- The end of `R` for a builtin whose arguments are on the stack. -/
def finishBuiltin (b : Bif) (n : Nat) : Emit :=
  Emit.andThen (checkSparked b)
    (Emit.andThen
      (if (builtinInfo b).pure then Emit.builtin b
        else Emit.andThen (domkframe scs fuel (.bif b) (builtinInfo b).nargs) (Emit.eval 0))
      (Emit.andThen (if 0 < n then Emit.op (.squeeze 1 n) else Emit.nothing)
        (Emit.andThen (fun s => if s.si.length = 1 then some ([], s) else none)
          (if (builtinInfo b).reswhnf then Emit.op .ret
            else Emit.andThen (Emit.eval 0) (Emit.op (.do_ true))))))

/-- An `if` whose branches end the function: nothing is joined. -/
def emitIfR (jmp : Nat → Op) (ct cf : Emit) : Emit := fun s => do
  let (_, s1) ← Emit.op (jmp 0) s
  let (code1, s2) ← ct s1
  let (code2, s3) ← cf { s1 with strings := s2.strings }
  return (⟨jmp (code1.length + 1), s.si.length, s.si⟩ :: code1 ++ code2,
    { s1 with strings := s3.strings })

/-- `R` of a call of a builtin or of a supercombinator. -/
def compCallR (p : Pmap) (n : Nat) (c : Snode) (head : Snode) : Emit := fun s => do
  let fno ← snodeFno head
  let k ← functionNargs scs fno
  if k < spineLength c then
    Emit.andThen (compS scs fuel p n (spineArgs c))
      (Emit.andThen (domkframe scs fuel fno k)
        (Emit.andThen (Emit.spark 0) (Emit.andThen (Emit.eval 0) (Emit.op (.do_ false))))) s
  else if spineLength c = k then
    match fno with
    | .bif b => Emit.andThen (compArgsE scs fuel p n c) (finishBuiltin scs fuel b n) s
    | .sc i => Emit.andThen (compS scs fuel p n (spineArgs c)) (emitJfun scs (.sc i)) s
  else
    Emit.andThen (compArgsC scs fuel p n c)
      (Emit.andThen (Emit.op (.mkcap fno (spineLength c))) (Emit.op .ret)) s

/-- The application case of `R`, apart from `if`, `seq`, `item` and lists. -/
def compAppR (p : Pmap) (n : Nat) (c : Snode) : Emit :=
  match spineHead c with
  | .symbol x =>
    Emit.andThen (compS scs fuel p n (spineArgs c ++ [(.symbol x, false)]))
      (Emit.andThen (Emit.spark 0) (Emit.andThen (Emit.eval 0) (Emit.op (.do_ false))))
  | head => compCallR scs fuel p n c head

/-- Scheme `R` -/
def compR (p : Pmap) (n : Nat) : Snode → Emit
  | .application l r s =>
    if iscons (.application l r s) && iscons r then
      Emit.andThen (compCons scs fuel p n (.application l r s)) (Emit.op .ret)
    else
      match l with
      | .application (.application (.builtin .if_) cond _) truebranch _ =>
        match cond with
        | .application (.application (.builtin .eq) x s1) (.number d) s2 =>
          if isIntegral d then
            Emit.andThen (compE scs fuel p n x)
              (Emit.andThen (Emit.eval 0)
                (Emit.int d fun k => emitIfR (.jeq · k) (Emit.andThen (Emit.op (.pop 1)) (compR p n r))
                  (Emit.andThen (Emit.op (.pop 1)) (compR p n truebranch))))
          else
            Emit.andThen
              (compE scs fuel p n (.application (.application (.builtin .eq) x s1) (.number d) s2))
              (Emit.andThen (Emit.eval 0) (emitIfR .jfalse (compR p n truebranch) (compR p n r)))
        | cond =>
          Emit.andThen (compE scs fuel p n cond)
            (Emit.andThen (Emit.eval 0) (emitIfR .jfalse (compR p n truebranch) (compR p n r)))
      | .application (.builtin .seq) expr1 _ =>
        Emit.andThen (compE scs fuel p n expr1)
          (Emit.andThen (Emit.eval 0) (Emit.andThen (Emit.op (.pop 1)) (compR p n r)))
      | .application (.scref i) (.number d) s1 =>
        if isItem scs i && isIntegral d then
          Emit.int d fun index => Emit.andThen (compE scs fuel p n r)
            (Emit.andThen (Emit.op (.itemn index true))
              (Emit.andThen (if 0 < n then Emit.op (.squeeze 1 n) else Emit.nothing)
                (Emit.andThen (Emit.eval 0) (Emit.op (.do_ true)))))
        else compAppR scs fuel p n (.application (.application (.scref i) (.number d) s1) r s)
      | l => compAppR scs fuel p n (.application l r s)
  | .symbol x =>
    Emit.andThen (compC scs fuel p n (.symbol x))
      (Emit.andThen (Emit.op (.squeeze 1 n)) (Emit.andThen (Emit.eval 0) (Emit.op .ret)))
  | .builtin b => Emit.andThen (Emit.op (.mkcap (.bif b) 0)) (Emit.op .ret)
  | .scref i => fun s => do
    let k ← functionNargs scs (.sc i)
    if k = 0 then emitJfun scs (.sc i) s
    else Emit.andThen (Emit.op (.mkcap (.sc i) 0)) (Emit.op .ret) s
  | .nil => Emit.andThen (Emit.op .pushnil) (Emit.op .ret)
  | .number d => Emit.andThen (Emit.op (.pushnumber d)) (Emit.op .ret)
  | .string v => Emit.andThen (Emit.pushString v) (Emit.op .ret)
  | .letrec bs b =>
    let k := bs.names.length
    let p' := p ++ letrecPmap n bs
    Emit.andThen (compLetrec scs fuel p' n true k false bs) (compR p' (n + k) b)
  | .lambda _ _ => fun _ => none

end Schemes

end Bytecode
end NReduce
