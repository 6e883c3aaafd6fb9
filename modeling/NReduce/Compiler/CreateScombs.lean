import NReduce.Compiler.Syntax
import Mathlib.Algebra.GroupWithZero.Nat

/-!
# NReduce.Compiler.CreateScombs

The second phase of `lift` in `lifting.c`: every maximal group of lambdas becomes a supercombinator.

`create_scombs` stores the node under the lambdas in the `body` field of the new supercombinator
and then transforms that node. The recursive call may put another node in its place and free the
one that was stored: a letrec that loses all its bindings is replaced by its body, and a symbol
that names a function by an `SCREF`. The field then points to freed memory, `BodyPtr.freed`.

`createScombs_complete_iff`: the pass does what it is for exactly when no group of lambdas has such
a node as its body.
-/

namespace NReduce
namespace Compiler

def Snode.isLambda : Snode → Bool
  | .lambda _ _ => true
  | _ => false

/-- The `body` field of a supercombinator. -/
inductive BodyPtr where
  | null
  | node (e : Snode)
  | freed
  deriving DecidableEq

/-- The fields of `struct scomb` that the pass sets. -/
structure LiftScomb where
  name : String
  argnames : List String
  body : BodyPtr
  deriving DecidableEq

/-- The name `add_scomb` gives: `name1` up to its first `#`, with the least number that is not
taken. -/
def scombName (taken : List String) (name1 : String) : String :=
  let name := String.ofList (name1.toList.takeWhile (· ≠ '#'))
  let numbered := fun num => if 0 < num then name ++ "#" ++ toString num else name
  (((List.range (taken.length + 1)).map numbered).find? (· ∉ taken)).getD name

/-- `add_scomb`; the new supercombinator has the index `scs.length`. -/
def addScomb (scs : List LiftScomb) (name1 : String) : List LiftScomb :=
  scs ++ [⟨scombName (scs.map LiftScomb.name) name1, [], .null⟩]

/-- The stack `boundvars`, the top first. A letrec binding comes with the index of its
supercombinator, `rec->sc`. -/
abbrev BoundVars := List (String × Option Nat)

/-- The supercombinator a symbol stands for; `none` for variables. -/
def boundTo : BoundVars → String → Option Nat
  | [], _ => none
  | (y, sc) :: bv, x => if y = x then sc else boundTo bv x

/-- The first loop of the letrec case. -/
def pushBindings (bv : BoundVars) (scs : List LiftScomb) : Letrec → BoundVars × List LiftScomb
  | .done => (bv, scs)
  | .bind x v _ next =>
    if v.isLambda then pushBindings ((x, some scs.length) :: bv) (addScomb scs x) next
    else pushBindings ((x, none) :: bv) scs next

/-- Where the walk stands: at a node outside a group, with `inletrec->sc`, or below the lambdas
`args` of the supercombinator `newsc`. -/
inductive Target where
  | node (inletrec : Option Nat)
  | group (newsc : Nat) (args : List String)

/-- The transformed node, whether it is still the node that was there, and the table. -/
abbrev Created := Snode × Bool × List LiftScomb

/-- What the lambda case does with the node below the lambdas. -/
def Target.finish : Target → Created → Created
  | .node _, r => r
  | .group newsc args, (e, kept, scs) =>
    (e, kept, scs.modify newsc (fun sc =>
      { sc with argnames := args, body := if kept then .node e else .freed }))

def scNameAt (scs : List LiftScomb) (i : Nat) : String := ((scs[i]?).map LiftScomb.name).getD ""

/-- A letrec without bindings is replaced by its body. -/
def mkLetrec : Letrec → Snode → Snode
  | .done, b => b
  | .bind x v s next, b => .letrec (.bind x v s next) b

def Letrec.isDone : Letrec → Bool
  | .done => true
  | .bind _ _ _ _ => false

mutual

/-- `create_scombs`; `scname` is the parameter that names the supercombinators of nameless
groups. -/
def createScombs (bv : BoundVars) (target : Target) (scname : String) (scs : List LiftScomb) :
    Snode → Created
  | .application l r s =>
    let (l', _, scs1) := createScombs bv (.node none) scname scs l
    let (r', _, scs2) := createScombs bv (.node none) scname scs1 r
    target.finish (.application l' r' s, true, scs2)
  | .letrec bs b =>
    let (bv', scs1) := pushBindings bv scs bs
    let (bs', scs2) := createBindings bv' scname scs.length scs1 bs
    let (b', _, scs3) := createScombs bv' (.node none) scname scs2 b
    target.finish (mkLetrec bs' b', !bs'.isDone, scs3)
  | .lambda x b =>
    match target with
    | .group newsc args => createScombs ((x, none) :: bv) (.group newsc (args ++ [x])) scname scs b
    | .node inletrec =>
      let newsc := inletrec.getD scs.length
      let scs1 := if inletrec.isSome then scs else addScomb scs scname
      let (_, _, scs2) :=
        createScombs ((x, none) :: bv) (.group newsc [x]) (scNameAt scs1 newsc) scs1 b
      (.scref newsc, false, scs2)
  | .symbol x =>
    match boundTo bv x with
    | some sc => target.finish (.scref sc, false, scs)
    | none => target.finish (.symbol x, true, scs)
  | .scref i => target.finish (.scref i, true, scs)
  | .builtin b => target.finish (.builtin b, true, scs)
  | .nil => target.finish (.nil, true, scs)
  | .number d => target.finish (.number d, true, scs)
  | .string s => target.finish (.string s, true, scs)

/-- The loop over the bindings, without those that became supercombinators. `sc` is the index of
the first supercombinator that belongs to them. -/
def createBindings (bv : BoundVars) (scname : String) (sc : Nat) (scs : List LiftScomb) :
    Letrec → Letrec × List LiftScomb
  | .done => (.done, scs)
  | .bind x v s next =>
    if v.isLambda then
      let (_, _, scs1) := createScombs bv (.node (some sc)) scname scs v
      createBindings bv scname (sc + 1) scs1 next
    else
      let (v', _, scs1) := createScombs bv (.node none) scname scs v
      let (next', scs2) := createBindings bv scname sc scs1 next
      (.bind x v' s next', scs2)

end

/-! ## What the pass is for -/

/-- The names in scope, the innermost first; `true` for a letrec binding whose value is a
lambda. -/
abbrev Scope := List (String × Bool)

def isFun : Scope → String → Bool
  | [], _ => false
  | (y, f) :: scope, x => if y = x then f else isFun scope x

def scopeOf (bv : BoundVars) : Scope := bv.map (fun p => (p.1, p.2.isSome))

def Letrec.pushScope (scope : Scope) : Letrec → Scope
  | .done => scope
  | .bind x v _ next => next.pushScope ((x, v.isLambda) :: scope)

mutual

/-- What the capture phase leaves behind: the free symbols of a maximal group of lambdas are
letrec-bound lambdas. -/
def Snode.captured (scope : Scope) (ingroup : Bool) : Snode → Bool
  | .lambda x b =>
    (ingroup || (Snode.lambda x b).free.all (isFun scope)) && b.captured ((x, false) :: scope) true
  | .application l r _ => l.captured scope false && r.captured scope false
  | .letrec bs b =>
    bs.captured (bs.pushScope scope) && b.captured (bs.pushScope scope) false
  | .builtin _ | .symbol _ | .scref _ | .nil | .number _ | .string _ => true

def Letrec.captured (scope : Scope) : Letrec → Bool
  | .done => true
  | .bind _ v _ next => v.captured scope false && next.captured scope

end

mutual

/-- `e'` is `e` with every group of lambdas replaced by the supercombinator that holds it: an
`SCREF` for a reference to a letrec-bound lambda and for a lambda in place, nothing for the
binding of a lambda. Read from right to left it unfolds the `SCREF`s. `stored` relates the body of
a group, in its scope, and the transformed body to the field `body`. -/
inductive Lifted (lo : Nat) (scs : List LiftScomb)
    (stored : BoundVars → Snode → Snode → BodyPtr → Prop) : BoundVars → Snode → Snode → Prop
  | application {bv : BoundVars} {l l' r r' : Snode} {s : Bool} : Lifted lo scs stored bv l l' →
      Lifted lo scs stored bv r r' →
      Lifted lo scs stored bv (.application l r s) (.application l' r' s)
  | var {bv : BoundVars} {x : String} : boundTo bv x = none →
      Lifted lo scs stored bv (.symbol x) (.symbol x)
  | func {bv : BoundVars} {x : String} {i : Nat} : boundTo bv x = some i →
      Lifted lo scs stored bv (.symbol x) (.scref i)
  | lambda {bv : BoundVars} {e : Snode} {i : Nat} : e.isLambda = true →
      LiftedGroup lo scs stored bv [] e i → Lifted lo scs stored bv e (.scref i)
  | letrec {bv : BoundVars} {bs bs' : Letrec} {b b' : Snode} {is : List (Option Nat)} :
      LiftedB lo scs stored ((bs.names.zip is).reverse ++ bv) is bs bs' →
      Lifted lo scs stored ((bs.names.zip is).reverse ++ bv) b b' →
      Lifted lo scs stored bv (.letrec bs b) (mkLetrec bs' b')
  | scref {bv : BoundVars} {i : Nat} : Lifted lo scs stored bv (.scref i) (.scref i)
  | builtin {bv : BoundVars} {b : Bif} : Lifted lo scs stored bv (.builtin b) (.builtin b)
  | nil {bv : BoundVars} : Lifted lo scs stored bv .nil .nil
  | number {bv : BoundVars} {d : Double} : Lifted lo scs stored bv (.number d) (.number d)
  | string {bv : BoundVars} {s : String} : Lifted lo scs stored bv (.string s) (.string s)

/-- Supercombinator `i` of the table holds the group that starts with the lambdas `xs`. -/
inductive LiftedGroup (lo : Nat) (scs : List LiftScomb)
    (stored : BoundVars → Snode → Snode → BodyPtr → Prop) :
    BoundVars → List String → Snode → Nat → Prop
  | lambda {bv : BoundVars} {xs : List String} {x : String} {b : Snode} {i : Nat} :
      LiftedGroup lo scs stored ((x, none) :: bv) (xs ++ [x]) b i →
      LiftedGroup lo scs stored bv xs (.lambda x b) i
  | body {bv : BoundVars} {sc : LiftScomb} {e e' : Snode} {i : Nat} : e.isLambda = false →
      lo ≤ i → scs[i]? = some sc → Lifted lo scs stored bv e e' → stored bv e e' sc.body →
      LiftedGroup lo scs stored bv sc.argnames e i

/-- The bindings, with the supercombinator of each that is a lambda. -/
inductive LiftedB (lo : Nat) (scs : List LiftScomb)
    (stored : BoundVars → Snode → Snode → BodyPtr → Prop) :
    BoundVars → List (Option Nat) → Letrec → Letrec → Prop
  | done {bv : BoundVars} : LiftedB lo scs stored bv [] .done .done
  | func {bv : BoundVars} {i : Nat} {is : List (Option Nat)} {x : String} {v : Snode} {s : Bool}
      {next next' : Letrec} : v.isLambda = true → LiftedGroup lo scs stored bv [] v i →
      LiftedB lo scs stored bv is next next' →
      LiftedB lo scs stored bv (some i :: is) (.bind x v s next) next'
  | data {bv : BoundVars} {is : List (Option Nat)} {x : String} {v v' : Snode} {s : Bool}
      {next next' : Letrec} : v.isLambda = false → Lifted lo scs stored bv v v' →
      LiftedB lo scs stored bv is next next' →
      LiftedB lo scs stored bv (none :: is) (.bind x v s next) (.bind x v' s next')

end

/-! ## Properties of the relation -/

section Relation

variable {lo : Nat} {scs scs' : List LiftScomb}
  {stored stored' : BoundVars → Snode → Snode → BodyPtr → Prop}

/-- A table may grow, and the supercombinators that a derivation reads may change what is stored,
as long as `stored'` holds of it. -/
def Refines (lo : Nat) (scs scs' : List LiftScomb)
    (stored stored' : BoundVars → Snode → Snode → BodyPtr → Prop) : Prop :=
  ∀ (bv : BoundVars) (e e' : Snode) (i : Nat) (sc : LiftScomb), lo ≤ i → scs[i]? = some sc →
    stored bv e e' sc.body → scs'[i]? = some sc ∧ stored' bv e e' sc.body

mutual

theorem Lifted.mono (h : Refines lo scs scs' stored stored') : ∀ {bv : BoundVars} {e e' : Snode},
    Lifted lo scs stored bv e e' → Lifted lo scs' stored' bv e e'
  | _, _, _, .application hl hr => .application (Lifted.mono h hl) (Lifted.mono h hr)
  | _, _, _, .var hx => .var hx
  | _, _, _, .func hx => .func hx
  | _, _, _, .lambda he hg => .lambda he (LiftedGroup.mono h hg)
  | _, _, _, .letrec hbs hb => .letrec (LiftedB.mono h hbs) (Lifted.mono h hb)
  | _, _, _, .scref => .scref
  | _, _, _, .builtin => .builtin
  | _, _, _, .nil => .nil
  | _, _, _, .number => .number
  | _, _, _, .string => .string

theorem LiftedGroup.mono (h : Refines lo scs scs' stored stored') : ∀ {bv : BoundVars}
    {xs : List String} {e : Snode} {i : Nat}, LiftedGroup lo scs stored bv xs e i →
    LiftedGroup lo scs' stored' bv xs e i
  | _, _, _, _, .lambda hg => .lambda (LiftedGroup.mono h hg)
  | _, _, _, _, .body he hlo hi hb hs =>
    let hsc := h _ _ _ _ _ hlo hi hs
    .body he hlo hsc.1 (Lifted.mono h hb) hsc.2

theorem LiftedB.mono (h : Refines lo scs scs' stored stored') : ∀ {bv : BoundVars}
    {is : List (Option Nat)} {bs bs' : Letrec}, LiftedB lo scs stored bv is bs bs' →
    LiftedB lo scs' stored' bv is bs bs'
  | _, _, _, _, .done => .done
  | _, _, _, _, .func hv hg hn => .func hv (LiftedGroup.mono h hg) (LiftedB.mono h hn)
  | _, _, _, _, .data hv hl hn => .data hv (Lifted.mono h hl) (LiftedB.mono h hn)

end

theorem lambdaFree_mkLetrec {bs : Letrec} {b : Snode} (hbs : bs.lambdaFree = true)
    (hb : b.lambdaFree = true) : (mkLetrec bs b).lambdaFree = true := by
  cases bs with
  | done => exact hb
  | bind x v s next => simp [mkLetrec, Snode.lambdaFree, hbs, hb]

mutual

theorem Lifted.lambdaFree : ∀ {bv : BoundVars} {e e' : Snode}, Lifted lo scs stored bv e e' →
    e'.lambdaFree = true
  | _, _, _, .application hl hr => by
    simp [Snode.lambdaFree, Lifted.lambdaFree hl, Lifted.lambdaFree hr]
  | _, _, _, .letrec hbs hb => lambdaFree_mkLetrec (LiftedB.lambdaFree hbs) (Lifted.lambdaFree hb)
  | _, _, _, .var _ => by simp [Snode.lambdaFree]
  | _, _, _, .func _ => by simp [Snode.lambdaFree]
  | _, _, _, .lambda _ _ => by simp [Snode.lambdaFree]
  | _, _, _, .scref => by simp [Snode.lambdaFree]
  | _, _, _, .builtin => by simp [Snode.lambdaFree]
  | _, _, _, .nil => by simp [Snode.lambdaFree]
  | _, _, _, .number => by simp [Snode.lambdaFree]
  | _, _, _, .string => by simp [Snode.lambdaFree]

theorem LiftedB.lambdaFree : ∀ {bv : BoundVars} {is : List (Option Nat)} {bs bs' : Letrec},
    LiftedB lo scs stored bv is bs bs' → bs'.lambdaFree = true
  | _, _, _, _, .done => by simp [Letrec.lambdaFree]
  | _, _, _, _, .func _ _ hn => LiftedB.lambdaFree hn
  | _, _, _, _, .data _ hl hn => by
    simp [Letrec.lambdaFree, Lifted.lambdaFree hl, LiftedB.lambdaFree hn]

end

theorem boundTo_append_of_none : ∀ {bv bv' : BoundVars} {x : String}, (∀ p ∈ bv, p.1 ≠ x) →
    boundTo (bv ++ bv') x = boundTo bv' x
  | [], _, _, _ => rfl
  | (y, sc) :: bv, bv', x, h => by
    have hy : y ≠ x := h (y, sc) List.mem_cons_self
    rw [List.cons_append, boundTo, if_neg hy]
    exact boundTo_append_of_none (fun p hp => h p (List.mem_cons_of_mem _ hp))

/-- A name without a supercombinator at the top of the stack is one of the entries without. -/
theorem boundTo_append_mem : ∀ {bv bv' : BoundVars} {x : String}, (∃ p ∈ bv, p.1 = x) →
    boundTo (bv ++ bv') x = none → (x, none) ∈ bv
  | (y, sc) :: bv, bv', x, h, hn => by
    rw [List.cons_append, boundTo] at hn
    split at hn
    · subst_vars; exact List.mem_cons_self
    · refine List.mem_cons_of_mem _ (boundTo_append_mem ?_ hn)
      obtain ⟨p, hp, rfl⟩ := h
      rcases List.mem_cons.mp hp with rfl | hp
      · exact absurd rfl ‹_›
      · exact ⟨p, hp, rfl⟩

mutual

theorem LiftedB.length : ∀ {bv : BoundVars} {is : List (Option Nat)} {bs bs' : Letrec},
    LiftedB lo scs stored bv is bs bs' → is.length = bs.names.length
  | _, _, _, _, .done => rfl
  | _, _, _, _, .func _ _ hn => by simp [Letrec.names, hn.length]
  | _, _, _, _, .data _ _ hn => by simp [Letrec.names, hn.length]

theorem LiftedB.scopeOf_eq : ∀ {bv : BoundVars} {is : List (Option Nat)} {bs bs' : Letrec},
    LiftedB lo scs stored bv is bs bs' → ∀ bv',
      scopeOf ((bs.names.zip is).reverse ++ bv') = bs.pushScope (scopeOf bv')
  | _, _, _, _, .done, bv' => by simp [Letrec.names, Letrec.pushScope]
  | _, _, _, _, @LiftedB.func _ _ _ _ i _ x _ _ _ _ hv _ hn, bv' => by
    have h := LiftedB.scopeOf_eq hn ((x, some i) :: bv')
    simpa [Letrec.names, Letrec.pushScope, scopeOf, hv] using h
  | _, _, _, _, @LiftedB.data _ _ _ _ _ x _ _ _ _ _ hv _ hn, bv' => by
    have h := LiftedB.scopeOf_eq hn ((x, none) :: bv')
    simpa [Letrec.names, Letrec.pushScope, scopeOf, hv] using h

/-- The bindings that are kept. -/
theorem LiftedB.mem_names : ∀ {bv : BoundVars} {is : List (Option Nat)} {bs bs' : Letrec}
    {x : String}, LiftedB lo scs stored bv is bs bs' → (x, none) ∈ bs.names.zip is → x ∈ bs'.names
  | _, _, _, _, _, .done, h => by simp [Letrec.names] at h
  | _, _, _, _, _, .func _ _ hn, h => by
    simp only [Letrec.names, List.zip_cons_cons, List.mem_cons, Prod.mk.injEq, reduceCtorEq,
      and_false, false_or] at h
    exact LiftedB.mem_names hn h
  | _, _, _, _, _, .data _ _ hn, h => by
    simp only [Letrec.names, List.zip_cons_cons, List.mem_cons, Prod.mk.injEq, and_true] at h ⊢
    exact h.imp id (fun h => LiftedB.mem_names hn h)

end

theorem mem_free_mkLetrec {bs : Letrec} {b : Snode} {x : String} (h : x ∈ (mkLetrec bs b).free) :
    (x ∈ bs.free ∨ x ∈ b.free) ∧ x ∉ bs.names := by
  cases bs with
  | done => exact ⟨Or.inr h, by simp [Letrec.names]⟩
  | bind y v s next =>
    simp only [mkLetrec, Snode.free, List.mem_filter, List.mem_append, decide_eq_true_eq] at h
    exact h

mutual

/-- The symbols of the transformed tree: symbols of the tree that no supercombinator replaced. -/
theorem Lifted.free : ∀ {bv : BoundVars} {e e' : Snode}, Lifted lo scs stored bv e e' →
    ∀ x ∈ e'.free, x ∈ e.free ∧ boundTo bv x = none
  | _, _, _, .application hl hr, x, h => by
    simp only [Snode.free, List.mem_append] at h ⊢
    rcases h with h | h
    · exact ⟨Or.inl (Lifted.free hl x h).1, (Lifted.free hl x h).2⟩
    · exact ⟨Or.inr (Lifted.free hr x h).1, (Lifted.free hr x h).2⟩
  | bv, _, _, @Lifted.letrec _ _ _ _ bs bs' b b' is hbs hb, x, h => by
    obtain ⟨hx, hn⟩ := mem_free_mkLetrec h
    have hx' : (x ∈ bs.free ∨ x ∈ b.free) ∧
        boundTo ((bs.names.zip is).reverse ++ bv) x = none := by
      rcases hx with hx | hx
      · exact ⟨Or.inl (LiftedB.free hbs x hx).1, (LiftedB.free hbs x hx).2⟩
      · exact ⟨Or.inr (Lifted.free hb x hx).1, (Lifted.free hb x hx).2⟩
    have hnames : ∀ p ∈ (bs.names.zip is).reverse, p.1 ≠ x := by
      intro p hp he
      apply hn
      have := boundTo_append_mem ⟨p, hp, he⟩ hx'.2
      exact hbs.mem_names (List.mem_reverse.mp this)
    have hxn : x ∉ bs.names := by
      intro hm
      obtain ⟨k, hk, rfl⟩ := List.getElem_of_mem hm
      have hk' : k < is.length := by rw [hbs.length]; exact hk
      refine hnames (bs.names[k], is[k]) ?_ rfl
      rw [List.mem_reverse, List.mem_iff_getElem]
      exact ⟨k, by rw [List.length_zip]; omega, by simp⟩
    rw [boundTo_append_of_none hnames] at hx'
    exact ⟨by simpa [Snode.free, hxn] using hx'.1, hx'.2⟩
  | _, _, _, @Lifted.var _ _ _ _ y hy, x, h => by
    simp only [Snode.free, List.mem_singleton] at h ⊢
    exact ⟨h, h ▸ hy⟩
  | _, _, _, .func _, x, h => by simp [Snode.free] at h
  | _, _, _, .lambda _ _, x, h => by simp [Snode.free] at h
  | _, _, _, .scref, x, h => by simp [Snode.free] at h
  | _, _, _, .builtin, x, h => by simp [Snode.free] at h
  | _, _, _, .nil, x, h => by simp [Snode.free] at h
  | _, _, _, .number, x, h => by simp [Snode.free] at h
  | _, _, _, .string, x, h => by simp [Snode.free] at h

theorem LiftedB.free : ∀ {bv : BoundVars} {is : List (Option Nat)} {bs bs' : Letrec},
    LiftedB lo scs stored bv is bs bs' → ∀ x ∈ bs'.free, x ∈ bs.free ∧ boundTo bv x = none
  | _, _, _, _, .done, x, h => by simp [Letrec.free] at h
  | _, _, _, _, .func _ _ hn, x, h => by
    have := LiftedB.free hn x h
    exact ⟨by simp [Letrec.free, this.1], this.2⟩
  | _, _, _, _, .data _ hl hn, x, h => by
    simp only [Letrec.free, List.mem_append] at h ⊢
    rcases h with h | h
    · exact ⟨Or.inl (Lifted.free hl x h).1, (Lifted.free hl x h).2⟩
    · exact ⟨Or.inr (LiftedB.free hn x h).1, (LiftedB.free hn x h).2⟩

end

end Relation

/-! ## The pass satisfies the relation -/

/-- Some binding is not a lambda. -/
def Letrec.hasData : Letrec → Bool
  | .done => false
  | .bind _ v _ next => !v.isLambda || next.hasData

/-- The pass does not put another node in the place of the tree. -/
def Snode.rootKept (scope : Scope) : Snode → Bool
  | .letrec bs _ => bs.hasData
  | .symbol x => !isFun scope x
  | .application _ _ _ | .lambda _ _ | .builtin _ | .scref _ | .nil | .number _ | .string _ => true

mutual

/-- No maximal group of lambdas has a body whose root the pass replaces. `ingroup` says that the
tree stands right below a lambda. -/
def Snode.rootsKept (scope : Scope) (ingroup : Bool) : Snode → Bool
  | .lambda x b => b.rootsKept ((x, false) :: scope) true
  | .application l r _ => l.rootsKept scope false && r.rootsKept scope false
  | .letrec bs b =>
    (!ingroup || bs.hasData) &&
      (bs.rootsKept (bs.pushScope scope) && b.rootsKept (bs.pushScope scope) false)
  | .symbol x => !ingroup || !isFun scope x
  | .builtin _ | .scref _ | .nil | .number _ | .string _ => true

def Letrec.rootsKept (scope : Scope) : Letrec → Bool
  | .done => true
  | .bind _ v _ next => v.rootsKept scope false && next.rootsKept scope

end

attribute [local simp] createScombs createBindings Snode.captured Letrec.captured
  Snode.rootsKept Letrec.rootsKept

theorem rootsKept_lambda {scope : Scope} {e : Snode} (h : e.isLambda = true) :
    e.rootsKept scope false = e.rootsKept scope true := by
  cases e with
  | lambda x b => simp only [Snode.rootsKept]
  | _ => simp [Snode.isLambda] at h

theorem rootsKept_group {scope : Scope} {e : Snode} (h : e.isLambda = false) :
    e.rootsKept scope true = (e.rootKept scope && e.rootsKept scope false) := by
  cases e with
  | lambda x b => simp [Snode.isLambda] at h
  | _ => simp [Snode.rootsKept, Snode.rootKept]

/-- What the pass stores for the body `e` of a group. -/
def StoredBefore (bv : BoundVars) (e e' : Snode) (p : BodyPtr) : Prop :=
  p = if e.rootKept (scopeOf bv) then .node e' else .freed

theorem StoredBefore.ne_null {bv : BoundVars} {e e' : Snode} {p : BodyPtr}
    (h : StoredBefore bv e e' p) : p ≠ .null := by
  rw [h]
  split <;> simp

theorem isFun_scopeOf : ∀ (bv : BoundVars) (x : String),
    isFun (scopeOf bv) x = (boundTo bv x).isSome
  | [], _ => rfl
  | (y, sc) :: bv, x => by
    simp only [scopeOf, List.map_cons, isFun, boundTo]
    split
    · rfl
    · exact isFun_scopeOf bv x

/-- The supercombinators of the bindings, numbered from `k` on. -/
def Letrec.indices (k : Nat) : Letrec → List (Option Nat)
  | .done => []
  | .bind _ v _ next => if v.isLambda then some k :: next.indices (k + 1) else none :: next.indices k

def Letrec.funcs : Letrec → Nat
  | .done => 0
  | .bind _ v _ next => (if v.isLambda then 1 else 0) + next.funcs

/-- A finished supercombinator: if its body is live, it has no lambda in it and no symbol but the
arguments. -/
structure LiftScomb.Done (sc : LiftScomb) : Prop where
  filled : sc.body ≠ .null
  closed : ∀ b, sc.body = .node b → b.lambdaFree = true ∧ ∀ x ∈ b.free, x ∈ sc.argnames

/-- A part of the pass that finishes the supercombinators `fill` and those it adds. Where `ok`
holds, none of them points to freed memory. -/
structure Fills (ok : Prop) (fill : Nat → Prop) (scs scs' : List LiftScomb) : Prop where
  length : scs.length ≤ scs'.length
  frame : ∀ j < scs.length, ¬fill j → scs'[j]? = scs[j]?
  done : ∀ (j : Nat) (sc : LiftScomb), fill j ∨ scs.length ≤ j → scs'[j]? = some sc →
    sc.Done ∧ (ok → sc.body ≠ .freed)

def Null (scs : List LiftScomb) (j : Nat) : Prop := ∀ sc, scs[j]? = some sc → sc.body = .null

theorem Fills.refl (ok : Prop) (scs : List LiftScomb) : Fills ok (fun _ => False) scs scs where
  length := Nat.le_refl _
  frame := fun _ _ _ => rfl
  done := by
    intro j sc h hj
    rcases h with h | h
    · exact h.elim
    · rw [List.getElem?_eq_none h] at hj; cases hj

theorem Fills.trans {p q : Prop} {f g : Nat → Prop} {scs scs1 scs2 : List LiftScomb}
    (h1 : Fills p f scs scs1) (h2 : Fills q g scs1 scs2) :
    Fills (p ∧ q) (fun j => f j ∨ g j) scs scs2 where
  length := Nat.le_trans h1.length h2.length
  frame := by
    intro j hj hn
    rw [not_or] at hn
    rw [h2.frame j (Nat.lt_of_lt_of_le hj h1.length) hn.2, h1.frame j hj hn.1]
  done := by
    intro j sc h hj
    by_cases hg : g j ∨ scs1.length ≤ j
    · obtain ⟨hd, hl⟩ := h2.done j sc hg hj
      exact ⟨hd, fun hpq => hl hpq.2⟩
    · rw [not_or, Nat.not_le] at hg
      rw [h2.frame j hg.2 hg.1] at hj
      have hf : f j ∨ scs.length ≤ j := by
        rcases h with (h | h) | h
        · exact Or.inl h
        · exact absurd h hg.1
        · exact Or.inr h
      obtain ⟨hd, hl⟩ := h1.done j sc hf hj
      exact ⟨hd, fun hpq => hl hpq.1⟩

theorem Fills.weaken {p q : Prop} {f g : Nat → Prop} {scs scs' : List LiftScomb}
    (h : Fills p f scs scs') (hqp : q → p) (hfg : ∀ j, j < scs.length → (f j ↔ g j)) :
    Fills q g scs scs' where
  length := h.length
  frame := fun j hj hn => h.frame j hj (fun hf => hn ((hfg j hj).mp hf))
  done := by
    intro j sc hg hj
    have hf : f j ∨ scs.length ≤ j := by
      by_cases hl : j < scs.length
      · exact hg.imp (hfg j hl).mpr id
      · exact Or.inr (Nat.not_lt.mp hl)
    obtain ⟨hd, hl⟩ := h.done j sc hf hj
    exact ⟨hd, fun hq => hl (hqp hq)⟩

/-- Finished supercombinators stay as they are. -/
theorem Fills.refines {lo : Nat} {p : Prop} {f : Nat → Prop} {scs scs' : List LiftScomb}
    (h : Fills p f scs scs') (hnull : ∀ j, f j → Null scs j) :
    Refines lo scs scs' StoredBefore StoredBefore := by
  intro bv e e' i sc _ hi hs
  refine ⟨?_, hs⟩
  obtain ⟨hl, _⟩ := List.getElem?_eq_some_iff.mp hi
  rw [h.frame i hl (fun hf => hs.ne_null (hnull i hf sc hi)), hi]

theorem null_of_frame {p : Prop} {f : Nat → Prop} {scs scs' : List LiftScomb}
    (h : Fills p f scs scs') {j : Nat} (hj : j < scs.length) (hn : ¬f j) (hnull : Null scs j) : Null scs' j := by
  intro sc hsc
  rw [h.frame j hj hn] at hsc
  exact hnull sc hsc

theorem null_addScomb (scs : List LiftScomb) (name : String) :
    Null (addScomb scs name) scs.length := by
  intro sc h
  simp only [addScomb, List.getElem?_append_right (Nat.le_refl _), Nat.sub_self,
    List.getElem?_cons_zero, Option.some.injEq] at h
  rw [← h]

theorem pushBindings_spec : ∀ (bs : Letrec) (bv : BoundVars) (scs : List LiftScomb),
    (pushBindings bv scs bs).1 = (bs.names.zip (bs.indices scs.length)).reverse ++ bv ∧
    (pushBindings bv scs bs).2.length = scs.length + bs.funcs ∧
    (∀ j < scs.length, (pushBindings bv scs bs).2[j]? = scs[j]?) ∧
    (∀ j, scs.length ≤ j → Null (pushBindings bv scs bs).2 j)
  | .done, bv, scs => by
    refine ⟨by simp [pushBindings, Letrec.names], by simp [pushBindings, Letrec.funcs],
      fun _ _ => rfl, ?_⟩
    intro j hj sc h
    rw [pushBindings, List.getElem?_eq_none hj] at h
    cases h
  | .bind x v s next, bv, scs => by
    simp only [pushBindings, Letrec.names, Letrec.indices, Letrec.funcs]
    split
    · obtain ⟨h1, h2, h3, h4⟩ :=
        pushBindings_spec next ((x, some scs.length) :: bv) (addScomb scs x)
      have hlen : (addScomb scs x).length = scs.length + 1 := by simp [addScomb]
      rw [hlen] at h1 h2 h3 h4
      refine ⟨by simp [h1], by omega, ?_, ?_⟩
      · intro j hj
        rw [h3 j (by omega), addScomb, List.getElem?_append_left hj]
      · intro j hj
        by_cases he : j = scs.length
        · subst he
          intro sc hsc
          rw [h3 _ (by omega)] at hsc
          exact null_addScomb scs x sc hsc
        · exact h4 j (by omega)
    · obtain ⟨h1, h2, h3, h4⟩ := pushBindings_spec next ((x, none) :: bv) scs
      exact ⟨by simp [h1], by omega, h3, h4⟩

theorem pushScope_scopeOf : ∀ (bs : Letrec) (k : Nat) (bv : BoundVars),
    scopeOf ((bs.names.zip (bs.indices k)).reverse ++ bv) = bs.pushScope (scopeOf bv)
  | .done, k, bv => by simp [Letrec.names, Letrec.pushScope]
  | .bind x v s next, k, bv => by
    simp only [Letrec.names, Letrec.indices, Letrec.pushScope]
    cases hv : v.isLambda with
    | true =>
      have ih := pushScope_scopeOf next (k + 1) ((x, some k) :: bv)
      simpa [scopeOf] using ih
    | false =>
      have ih := pushScope_scopeOf next k ((x, none) :: bv)
      simpa [scopeOf] using ih

/-- What the walk does at a node outside a group. -/
def NodeSpec (lo : Nat) (e : Snode) : Prop :=
  ∀ (bv : BoundVars) (scname : String) (scs : List LiftScomb), lo ≤ scs.length →
    e.captured (scopeOf bv) false = true →
    Fills (e.rootsKept (scopeOf bv) false = true) (fun _ => False) scs
      (createScombs bv (.node none) scname scs e).2.2 ∧
    Lifted lo (createScombs bv (.node none) scname scs e).2.2 StoredBefore bv e
      (createScombs bv (.node none) scname scs e).1 ∧
    (e.isLambda = false →
      (createScombs bv (.node none) scname scs e).2.1 = e.rootKept (scopeOf bv))

/-- What the walk does below the lambdas `xs` of supercombinator `i`. -/
def GroupSpec (lo : Nat) (e : Snode) : Prop :=
  ∀ (bv : BoundVars) (scname : String) (scs : List LiftScomb) (i : Nat) (xs : List String),
    lo ≤ i → i < scs.length → Null scs i → e.captured (scopeOf bv) true = true →
    (∀ x ∈ e.free, x ∈ xs ∨ (boundTo bv x).isSome = true) →
    Fills (e.rootsKept (scopeOf bv) true = true) (fun j => j = i) scs
      (createScombs bv (.group i xs) scname scs e).2.2 ∧
    LiftedGroup lo (createScombs bv (.group i xs) scname scs e).2.2 StoredBefore bv xs e i

def BindSpec (lo : Nat) (bs : Letrec) : Prop :=
  ∀ (bv : BoundVars) (scname : String) (k : Nat) (scs : List LiftScomb), lo ≤ k →
    k + bs.funcs ≤ scs.length → (∀ j, k ≤ j → j < k + bs.funcs → Null scs j) →
    bs.captured (scopeOf bv) = true →
    Fills (bs.rootsKept (scopeOf bv) = true) (fun j => k ≤ j ∧ j < k + bs.funcs) scs
      (createBindings bv scname k scs bs).2 ∧
    LiftedB lo (createBindings bv scname k scs bs).2 StoredBefore bv (bs.indices k) bs
      (createBindings bv scname k scs bs).1 ∧
    (createBindings bv scname k scs bs).1.isDone = !bs.hasData

theorem createScombs_group (bv : BoundVars) (t : Target) (scname : String)
    (scs : List LiftScomb) {e : Snode} (h : e.isLambda = false) :
    createScombs bv t scname scs e = t.finish (createScombs bv (.node none) scname scs e) := by
  cases e with
  | lambda x b => simp [Snode.isLambda] at h
  | symbol x =>
    simp only [createScombs]
    split <;> rfl
  | _ => simp only [createScombs, Target.finish]

theorem captured_group {scope : Scope} {e : Snode} (h : e.isLambda = false) :
    e.captured scope true = e.captured scope false := by
  cases e with
  | lambda x b => simp [Snode.isLambda] at h
  | _ => simp only [Snode.captured]

/-- The node below the lambdas: it is transformed like any other and stored. -/
theorem NodeSpec.group {lo : Nat} {e : Snode} (he : e.isLambda = false) (h : NodeSpec lo e) :
    GroupSpec lo e := by
  intro bv scname scs i xs hlo hi hnull hcap hfree
  rw [createScombs_group bv _ scname scs he]
  obtain ⟨hfill, hl, hkept⟩ := h bv scname scs (by omega) (by rw [← captured_group he]; exact hcap)
  replace hkept := hkept he
  generalize createScombs bv (.node none) scname scs e = r at hfill hl hkept ⊢
  obtain ⟨e', kept, scs1⟩ := r
  simp only at hfill hl hkept
  subst hkept
  simp only [Target.finish]
  have hi1 : i < scs1.length := Nat.lt_of_lt_of_le hi hfill.length
  have hnull1 : Null scs1 i := null_of_frame hfill hi (fun h => h) hnull
  have hsc : (scs1.modify i (fun sc => { sc with
      argnames := xs, body := if e.rootKept (scopeOf bv) then .node e' else .freed }))[i]? =
      some { scs1[i] with
        argnames := xs, body := if e.rootKept (scopeOf bv) then .node e' else .freed } := by
    simp [hi1]
  refine ⟨⟨by simpa using hfill.length, ?_, ?_⟩, ?_⟩
  · intro j hj hne
    rw [List.getElem?_modify_ne _ _ (Ne.symm hne), hfill.frame j hj (fun h => h)]
  · intro j sc hj hjs
    by_cases hji : j = i
    · subst hji
      rw [hsc] at hjs
      obtain rfl := Option.some.inj hjs
      have hs : StoredBefore bv e e' _ := rfl
      refine ⟨⟨hs.ne_null, ?_⟩, ?_⟩
      swap
      · intro hok
        rw [rootsKept_group he, Bool.and_eq_true] at hok
        simp [hok.1]
      intro b hb
      simp only at hb
      split at hb
      · obtain rfl := BodyPtr.node.inj hb
        refine ⟨hl.lambdaFree, fun x hx => ?_⟩
        obtain ⟨h1, h2⟩ := hl.free x hx
        rcases hfree x h1 with h | h
        · exact h
        · rw [h2] at h; cases h
      · cases hb
    · rw [List.getElem?_modify_ne _ _ (Ne.symm hji)] at hjs
      obtain ⟨hd, hlive⟩ := hfill.done j sc (Or.inr (by omega)) hjs
      refine ⟨hd, fun hok => hlive ?_⟩
      rw [rootsKept_group he, Bool.and_eq_true] at hok
      exact hok.2
  · refine .body he hlo hsc (hl.mono ?_) rfl
    intro bv e e' j sc _ hj hs
    refine ⟨?_, hs⟩
    rw [List.getElem?_modify_ne _ _, hj]
    rintro rfl
    exact hs.ne_null (hnull1 sc hj)

/-- A group that starts here, outside any other. -/
theorem GroupSpec.lambda {lo : Nat} {x : String} {b : Snode} (h : GroupSpec lo b) :
    GroupSpec lo (.lambda x b) := by
  intro bv scname scs i xs hlo hi hnull hcap hfree
  simp only [Snode.captured, Bool.true_or, Bool.true_and] at hcap
  simp only [createScombs]
  obtain ⟨h1, h2⟩ := h ((x, none) :: bv) scname scs i (xs ++ [x]) hlo hi hnull hcap (by
    intro y hy
    by_cases hyx : y = x
    · exact Or.inl (by simp [hyx])
    · have hf := hfree y (by simp [Snode.free, hy, hyx])
      rw [boundTo, if_neg (Ne.symm hyx)]
      exact hf.imp (fun h => List.mem_append_left _ h) id)
  refine ⟨h1.weaken (fun hok => ?_) (fun _ _ => Iff.rfl), .lambda h2⟩
  simpa [Snode.rootsKept, scopeOf] using hok

/-- The lambda case: the group becomes supercombinator `newsc`. -/
theorem createScombs_lambda (bv : BoundVars) (inletrec : Option Nat) (scname : String)
    (scs : List LiftScomb) (x : String) (b : Snode) :
    ∃ name, createScombs bv (.node inletrec) scname scs (.lambda x b) =
      (.scref (inletrec.getD scs.length), false,
        (createScombs bv (.group (inletrec.getD scs.length) []) name
          (if inletrec.isSome then scs else addScomb scs scname) (.lambda x b)).2.2) :=
  ⟨scNameAt (if inletrec.isSome then scs else addScomb scs scname) (inletrec.getD scs.length),
    by simp only [createScombs, List.nil_append]⟩

theorem captured_lambda {bv : BoundVars} {x : String} {b : Snode}
    (h : (Snode.lambda x b).captured (scopeOf bv) false = true) :
    (Snode.lambda x b).captured (scopeOf bv) true = true ∧
      ∀ y ∈ (Snode.lambda x b).free, y ∈ ([] : List String) ∨ (boundTo bv y).isSome = true := by
  simp only [Snode.captured, Bool.false_or, Bool.and_eq_true, List.all_eq_true] at h
  refine ⟨by simpa [Snode.captured] using h.2, fun y hy => Or.inr ?_⟩
  rw [← isFun_scopeOf]
  exact h.1 y hy

theorem GroupSpec.node {lo : Nat} {x : String} {b : Snode} (h : GroupSpec lo (.lambda x b)) :
    NodeSpec lo (.lambda x b) := by
  intro bv scname scs hlo hcap
  obtain ⟨name, he⟩ := createScombs_lambda bv none scname scs x b
  rw [he]
  obtain ⟨hc, hf⟩ := captured_lambda hcap
  simp only [Option.getD_none, Option.isSome_none, Bool.false_eq_true, if_false]
  have hlen : (addScomb scs scname).length = scs.length + 1 := by simp [addScomb]
  obtain ⟨h1, h2⟩ := h bv name (addScomb scs scname) scs.length [] hlo (by omega)
    (null_addScomb scs scname) hc hf
  refine ⟨⟨?_, ?_, ?_⟩, .lambda rfl h2, by simp [Snode.isLambda]⟩
  · have := h1.length
    omega
  · intro j hj _
    rw [h1.frame j (by omega) (by omega), addScomb, List.getElem?_append_left hj]
  · intro j sc hj hs
    have hj' : j = scs.length ∨ (addScomb scs scname).length ≤ j := by
      rcases hj with hj | hj
      · exact hj.elim
      · omega
    obtain ⟨hd, hl⟩ := h1.done j sc hj' hs
    exact ⟨hd, fun hok => hl (by simpa [Snode.rootsKept] using hok)⟩

theorem NodeSpec.application {lo : Nat} {l r : Snode} {s : Bool} (hl : NodeSpec lo l)
    (hr : NodeSpec lo r) : NodeSpec lo (.application l r s) := by
  intro bv scname scs hlo hcap
  simp only [Snode.captured, Bool.and_eq_true] at hcap
  obtain ⟨f1, l1, _⟩ := hl bv scname scs hlo hcap.1
  obtain ⟨f2, l2, _⟩ := hr bv scname _ (Nat.le_trans hlo f1.length) hcap.2
  simp only [createScombs, Target.finish]
  refine ⟨(f1.trans f2).weaken (by simp [Snode.rootsKept]) (by simp), .application (l1.mono (f2.refines (by simp))) l2, ?_⟩
  simp [Snode.rootKept]

theorem NodeSpec.letrec {lo : Nat} {bs : Letrec} {b : Snode} (hbs : BindSpec lo bs)
    (hb : NodeSpec lo b) : NodeSpec lo (.letrec bs b) := by
  intro bv scname scs hlo hcap
  obtain ⟨p1, p2, p3, p4⟩ := pushBindings_spec bs bv scs
  simp only [Snode.captured, Bool.and_eq_true, ← pushScope_scopeOf bs scs.length bv] at hcap
  simp only [createScombs, Target.finish, p1]
  obtain ⟨f1, l1, d1⟩ := hbs _ scname scs.length (pushBindings bv scs bs).2 hlo (by omega)
    (fun j hj _ => p4 j hj) hcap.1
  obtain ⟨f2, l2, _⟩ := hb _ scname
    (createBindings ((bs.names.zip (bs.indices scs.length)).reverse ++ bv) scname scs.length
      (pushBindings bv scs bs).2 bs).2 (by have := f1.length; omega) hcap.2
  have hf := f1.trans f2
  refine ⟨⟨?_, ?_, ?_⟩, .letrec (l1.mono (f2.refines (by simp))) l2, ?_⟩
  · exact Nat.le_trans (by omega) hf.length
  · intro j hj _
    have hn : ¬((scs.length ≤ j ∧ j < scs.length + bs.funcs) ∨ False) := by
      rw [or_false]
      omega
    exact (hf.frame j (by omega) hn).trans (p3 j hj)
  · intro j sc hj hs
    have hj' : ((scs.length ≤ j ∧ j < scs.length + bs.funcs) ∨ False) ∨
        (pushBindings bv scs bs).2.length ≤ j := by
      rcases hj with hj | hj
      · exact hj.elim
      · rw [or_false]
        omega
    obtain ⟨hd, hl⟩ := hf.done j sc hj' hs
    refine ⟨hd, fun hok => hl ?_⟩
    simpa [Snode.rootsKept, pushScope_scopeOf] using hok
  · intro _
    rw [d1, Bool.not_not, Snode.rootKept]

theorem BindSpec.func {lo : Nat} {x y : String} {b : Snode} {s : Bool} {next : Letrec}
    (hv : GroupSpec lo (.lambda y b)) (hn : BindSpec lo next) :
    BindSpec lo (.bind x (.lambda y b) s next) := by
  intro bv scname k scs hlo hlen hnull hcap
  simp only [Letrec.captured, Bool.and_eq_true] at hcap
  simp only [Letrec.funcs, Snode.isLambda, if_true] at hlen hnull ⊢
  obtain ⟨name, he⟩ := createScombs_lambda bv (some k) scname scs y b
  simp only [createBindings, Snode.isLambda, if_true, he, Option.getD_some, Option.isSome_some]
  obtain ⟨hc, hf⟩ := captured_lambda hcap.1
  obtain ⟨f1, g1⟩ := hv bv name scs k [] hlo (by omega) (hnull k (by omega) (by omega)) hc hf
  have hlen1 := f1.length
  have hnull1 : ∀ j, k + 1 ≤ j → j < k + 1 + next.funcs →
      Null (createScombs bv (.group k []) name scs (.lambda y b)).2.2 j := fun j h1 h2 =>
    null_of_frame f1 (by omega) (by omega) (hnull j (by omega) (by omega))
  obtain ⟨f2, l2, d2⟩ := hn bv scname (k + 1) _ (by omega) (by omega) hnull1 hcap.2
  refine ⟨(f1.trans f2).weaken (by simp [Letrec.rootsKept, Snode.rootsKept]) (by omega), ?_, ?_⟩
  · simp only [Letrec.indices, Snode.isLambda, if_true]
    exact .func rfl (g1.mono (f2.refines (fun j hj => hnull1 j hj.1 hj.2))) l2
  · simpa [Letrec.hasData, Snode.isLambda] using d2

theorem BindSpec.data {lo : Nat} {x : String} {v : Snode} {s : Bool} {next : Letrec}
    (hl : v.isLambda = false) (hv : NodeSpec lo v) (hn : BindSpec lo next) :
    BindSpec lo (.bind x v s next) := by
  intro bv scname k scs hlo hlen hnull hcap
  simp only [Letrec.captured, Bool.and_eq_true] at hcap
  simp only [Letrec.funcs, hl, Bool.false_eq_true, if_false, Nat.zero_add] at hlen hnull ⊢
  simp only [createBindings, hl, Bool.false_eq_true, if_false]
  obtain ⟨f1, l1, _⟩ := hv bv scname scs (by omega) hcap.1
  have hlen1 := f1.length
  have hnull1 : ∀ j, k ≤ j → j < k + next.funcs →
      Null (createScombs bv (.node none) scname scs v).2.2 j := fun j h1 h2 =>
    null_of_frame f1 (by omega) (fun h => h) (hnull j h1 h2)
  obtain ⟨f2, l2, d2⟩ := hn bv scname k _ hlo (by omega) hnull1 hcap.2
  refine ⟨(f1.trans f2).weaken (by simp [Letrec.rootsKept]) (by simp), ?_,
    by simp [Letrec.isDone, Letrec.hasData, hl]⟩
  simp only [Letrec.indices, hl, Bool.false_eq_true, if_false]
  exact .data hl (l1.mono (f2.refines (fun j hj => hnull1 j hj.1 hj.2))) l2

theorem NodeSpec.leaf {lo : Nat} {e : Snode}
    (h : ∀ bv scname scs, createScombs bv (.node none) scname scs e = (e, true, scs))
    (hk : ∀ scope, e.rootKept scope = true)
    (hl : ∀ scs bv, Lifted lo scs StoredBefore bv e e) : NodeSpec lo e := by
  intro bv scname scs _ _
  rw [h]
  exact ⟨Fills.refl _ scs, hl scs bv, fun _ => (hk _).symm⟩

theorem NodeSpec.symbol {lo : Nat} {x : String} : NodeSpec lo (.symbol x) := by
  intro bv scname scs _ _
  simp only [createScombs, Target.finish, Snode.rootKept, isFun_scopeOf]
  cases hx : boundTo bv x with
  | some i => exact ⟨Fills.refl _ scs, .func hx, fun _ => rfl⟩
  | none => exact ⟨Fills.refl _ scs, .var hx, fun _ => rfl⟩

mutual

theorem nodeSpec (lo : Nat) : ∀ e : Snode, NodeSpec lo e
  | .application l r _ => (nodeSpec lo l).application (nodeSpec lo r)
  | .letrec bs b => .letrec (bindSpec lo bs) (nodeSpec lo b)
  | .lambda _ b => (groupSpec lo b).lambda.node
  | .symbol _ => .symbol
  | .scref _ => .leaf (fun _ _ _ => rfl) (fun _ => rfl) (fun _ _ => .scref)
  | .builtin _ => .leaf (fun _ _ _ => rfl) (fun _ => rfl) (fun _ _ => .builtin)
  | .nil => .leaf (fun _ _ _ => rfl) (fun _ => rfl) (fun _ _ => .nil)
  | .number _ => .leaf (fun _ _ _ => rfl) (fun _ => rfl) (fun _ _ => .number)
  | .string _ => .leaf (fun _ _ _ => rfl) (fun _ => rfl) (fun _ _ => .string)

theorem groupSpec (lo : Nat) : ∀ e : Snode, GroupSpec lo e
  | .lambda _ b => (groupSpec lo b).lambda
  | .application l r _ => ((nodeSpec lo l).application (nodeSpec lo r)).group rfl
  | .letrec bs b => (NodeSpec.letrec (bindSpec lo bs) (nodeSpec lo b)).group rfl
  | .symbol _ => NodeSpec.symbol.group rfl
  | .scref _ => (NodeSpec.leaf (fun _ _ _ => rfl) (fun _ => rfl) (fun _ _ => .scref)).group rfl
  | .builtin _ => (NodeSpec.leaf (fun _ _ _ => rfl) (fun _ => rfl) (fun _ _ => .builtin)).group rfl
  | .nil => (NodeSpec.leaf (fun _ _ _ => rfl) (fun _ => rfl) (fun _ _ => .nil)).group rfl
  | .number _ => (NodeSpec.leaf (fun _ _ _ => rfl) (fun _ => rfl) (fun _ _ => .number)).group rfl
  | .string _ => (NodeSpec.leaf (fun _ _ _ => rfl) (fun _ => rfl) (fun _ _ => .string)).group rfl

theorem bindSpec (lo : Nat) : ∀ bs : Letrec, BindSpec lo bs
  | .done => by
    intro bv scname k scs _ _ _ _
    simp only [createBindings, Letrec.indices, Letrec.funcs]
    refine ⟨(Fills.refl True scs).weaken (fun _ => trivial) (fun j _ => ?_), .done, rfl⟩
    show False ↔ k ≤ j ∧ j < k + 0
    exact ⟨False.elim, fun h => by omega⟩
  | .bind _ (.lambda _ b) _ next => .func (groupSpec lo b).lambda (bindSpec lo next)
  | .bind _ (.application l r _) _ next =>
    .data rfl ((nodeSpec lo l).application (nodeSpec lo r)) (bindSpec lo next)
  | .bind _ (.letrec bs b) _ next =>
    .data rfl (.letrec (bindSpec lo bs) (nodeSpec lo b)) (bindSpec lo next)
  | .bind _ (.symbol _) _ next => .data rfl .symbol (bindSpec lo next)
  | .bind _ (.scref _) _ next =>
    .data rfl (.leaf (fun _ _ _ => rfl) (fun _ => rfl) (fun _ _ => .scref)) (bindSpec lo next)
  | .bind _ (.builtin _) _ next =>
    .data rfl (.leaf (fun _ _ _ => rfl) (fun _ => rfl) (fun _ _ => .builtin)) (bindSpec lo next)
  | .bind _ .nil _ next =>
    .data rfl (.leaf (fun _ _ _ => rfl) (fun _ => rfl) (fun _ _ => .nil)) (bindSpec lo next)
  | .bind _ (.number _) _ next =>
    .data rfl (.leaf (fun _ _ _ => rfl) (fun _ => rfl) (fun _ _ => .number)) (bindSpec lo next)
  | .bind _ (.string _) _ next =>
    .data rfl (.leaf (fun _ _ _ => rfl) (fun _ => rfl) (fun _ _ => .string)) (bindSpec lo next)

end

/-! ## When the pass is complete -/

/-- What the pass is for, on the body `e` of a supercombinator with the arguments `args`: `e'` is
the body and `scs` the table afterwards, and the supercombinators from index `lo` on are those the
pass added. -/
structure LiftComplete (lo : Nat) (args : List String) (e e' : Snode) (scs : List LiftScomb) :
    Prop where
  lambdaFree : e'.lambdaFree = true
  closed : ∀ x ∈ e'.free, x ∈ args
  live : ∀ (i : Nat) (sc : LiftScomb), lo ≤ i → scs[i]? = some sc →
    ∃ b, sc.body = .node b ∧ b.lambdaFree = true ∧ ∀ x ∈ b.free, x ∈ sc.argnames
  unfolds : Lifted lo scs (fun _ _ b' p => p = .node b') [] e e'

section Live

variable {lo : Nat} {scs : List LiftScomb}

mutual

/-- A table in which all bodies are live comes from a tree in which no root is replaced. -/
theorem Lifted.rootsKept
    (hlive : ∀ (i : Nat) (sc : LiftScomb), lo ≤ i → scs[i]? = some sc → sc.body ≠ .freed) :
    ∀ {bv : BoundVars} {e e' : Snode}, Lifted lo scs StoredBefore bv e e' →
      e.rootsKept (scopeOf bv) false = true
  | _, _, _, .application hl hr => by
    simp [Snode.rootsKept, Lifted.rootsKept hlive hl, Lifted.rootsKept hlive hr]
  | _, _, _, .lambda he hg => (rootsKept_lambda he).trans (LiftedGroup.rootsKept hlive hg)
  | bv, _, _, @Lifted.letrec _ _ _ _ bs bs' b b' is hbs hb => by
    have h1 := LiftedB.rootsKept hlive hbs
    have h2 := Lifted.rootsKept hlive hb
    rw [hbs.scopeOf_eq bv] at h1 h2
    simp [Snode.rootsKept, h1, h2]
  | _, _, _, .var _ => by simp [Snode.rootsKept]
  | _, _, _, .func _ => by simp [Snode.rootsKept]
  | _, _, _, .scref => by simp [Snode.rootsKept]
  | _, _, _, .builtin => by simp [Snode.rootsKept]
  | _, _, _, .nil => by simp [Snode.rootsKept]
  | _, _, _, .number => by simp [Snode.rootsKept]
  | _, _, _, .string => by simp [Snode.rootsKept]

theorem LiftedGroup.rootsKept
    (hlive : ∀ (i : Nat) (sc : LiftScomb), lo ≤ i → scs[i]? = some sc → sc.body ≠ .freed) :
    ∀ {bv : BoundVars} {xs : List String} {e : Snode} {i : Nat},
      LiftedGroup lo scs StoredBefore bv xs e i → e.rootsKept (scopeOf bv) true = true
  | _, _, _, _, .lambda hg => by
    have h := LiftedGroup.rootsKept hlive hg
    simpa [Snode.rootsKept, scopeOf] using h
  | _, _, _, _, .body he hlo hi hb hs => by
    rw [rootsKept_group he, Lifted.rootsKept hlive hb, Bool.and_true]
    have hne := hlive _ _ hlo hi
    rw [hs] at hne
    split at hne
    · assumption
    · exact absurd rfl hne

theorem LiftedB.rootsKept
    (hlive : ∀ (i : Nat) (sc : LiftScomb), lo ≤ i → scs[i]? = some sc → sc.body ≠ .freed) :
    ∀ {bv : BoundVars} {is : List (Option Nat)} {bs bs' : Letrec},
      LiftedB lo scs StoredBefore bv is bs bs' → bs.rootsKept (scopeOf bv) = true
  | _, _, _, _, .done => by simp [Letrec.rootsKept]
  | _, _, _, _, .func hv hg hn => by
    simp [Letrec.rootsKept, rootsKept_lambda hv, LiftedGroup.rootsKept hlive hg,
      LiftedB.rootsKept hlive hn]
  | _, _, _, _, .data _ hl hn => by
    simp [Letrec.rootsKept, Lifted.rootsKept hlive hl, LiftedB.rootsKept hlive hn]

end

end Live

/-- The pass is complete exactly on the bodies in which no maximal group of lambdas has below it a
letrec that loses all its bindings, or a symbol that names a function. -/
theorem createScombs_complete_iff (scs : List LiftScomb) (scname : String) (args : List String)
    (e : Snode) (hcap : e.captured [] false = true) (hclosed : ∀ x ∈ e.free, x ∈ args) :
    LiftComplete scs.length args e (createScombs [] (.node none) scname scs e).1
        (createScombs [] (.node none) scname scs e).2.2 ↔
      e.rootsKept [] false = true := by
  obtain ⟨hfill, hl, _⟩ := nodeSpec scs.length e [] scname scs (Nat.le_refl _) hcap
  constructor
  · intro h
    refine hl.rootsKept (fun i sc hlo hi => ?_)
    obtain ⟨b, hb, _⟩ := h.live i sc hlo hi
    rw [hb]
    exact BodyPtr.noConfusion
  · intro hok
    have hlive : ∀ (i : Nat) (sc : LiftScomb), scs.length ≤ i →
        (createScombs [] (.node none) scname scs e).2.2[i]? = some sc →
        ∃ b, sc.body = .node b ∧ b.lambdaFree = true ∧ ∀ x ∈ b.free, x ∈ sc.argnames := by
      intro i sc hlo hi
      obtain ⟨hd, hfreed⟩ := hfill.done i sc (Or.inr hlo) hi
      cases hb : sc.body with
      | null => exact absurd hb hd.filled
      | freed => exact absurd hb (hfreed hok)
      | node b => exact ⟨b, rfl, hd.closed b hb⟩
    refine ⟨hl.lambdaFree, fun x hx => hclosed x (hl.free x hx).1, hlive, hl.mono ?_⟩
    intro bv b b' i sc hlo hi hs
    refine ⟨hi, ?_⟩
    obtain ⟨c, hc, _⟩ := hlive i sc hlo hi
    rw [hs] at hc ⊢
    split at hc
    · rw [if_pos ‹_›]
    · cases hc

/-- `letrec f = (!x. + x 1) in (f 2)` -/
def plainFunction : Snode :=
  .letrec (.bind "f" (.lambda "x" (.application (.application (.builtin .add) (.symbol "x") false)
    (.number 1) false)) false .done) (.application (.symbol "f") (.number 2) false)

theorem createScombs_plainFunction :
    LiftComplete 0 [] plainFunction (createScombs [] (.node none) "main" [] plainFunction).1
      (createScombs [] (.node none) "main" [] plainFunction).2.2 :=
  (createScombs_complete_iff [] "main" [] plainFunction (by decide) (by decide)).mpr (by decide)

/-- `letrec f = (!x. letrec g = (!y. y) in (g x)) in (f 2)`: the letrec below `!x` loses its only
binding. -/
def nestedFunction : Snode :=
  .letrec (.bind "f" (.lambda "x" (.letrec (.bind "g" (.lambda "y" (.symbol "y")) false .done)
    (.application (.symbol "g") (.symbol "x") false))) false .done)
    (.application (.symbol "f") (.number 2) false)

/-- The supercombinator of `f` keeps the letrec node, which is freed. -/
theorem createScombs_nestedFunction :
    nestedFunction.captured [] false = true ∧ nestedFunction.free = [] ∧
    ((createScombs [] (.node none) "main" [] nestedFunction).2.2[0]?).map LiftScomb.body =
      some .freed ∧
    ¬LiftComplete 0 [] nestedFunction (createScombs [] (.node none) "main" [] nestedFunction).1
      (createScombs [] (.node none) "main" [] nestedFunction).2.2 := by
  have hbody : ((createScombs [] (.node none) "main" [] nestedFunction).2.2[0]?).map
      LiftScomb.body = some .freed := by decide
  refine ⟨by decide, by decide, hbody, fun h => ?_⟩
  obtain ⟨sc, hsc, hfreed⟩ := Option.map_eq_some_iff.mp hbody
  obtain ⟨b, hb, _⟩ := h.live 0 sc (Nat.le_refl 0) hsc
  rw [hfreed] at hb
  cases hb

end Compiler
end NReduce
