import NReduce.Compiler.Program
import NReduce.Compiler.RenameDenote
import Mathlib.Logic.Relation

/-!
# NReduce.Compiler.Inlining

`inlining.c`: calls to small supercombinators are replaced in place by a letrec over the arguments
and a renamed copy of the body.

The pass mutates the body it walks while it copies bodies out of the table, so `inlineR` gets the
part of the tree around the current node as `ctx`: a supercombinator without arguments may be
copied into its own body, half rewritten. A saturated call of a supercombinator inside its own body
makes the C code copy a letrec node whose `body` is still `NULL`; `inlineR` returns `none` there.

Every run of the pass is a sequence of `InlineStep`s, each unfolding one call in one body
(`inlining_steps`). The results about the pass are invariants of that step.
-/

namespace NReduce
namespace Compiler

open Domain

/-- The head of an application spine and its arguments, in front of `args`. -/
def Snode.unwind : Snode → List Snode → Snode × List Snode
  | .application l r _, args => l.unwind (r :: args)
  | e, args => (e, args)

/-- The loop over `oldsyms` in `replace_symbols`: the first match decides. -/
def replaceName : List String → List String → String → String
  | old :: oldsyms, new :: newsyms, x => if x = old then new else replaceName oldsyms newsyms x
  | _, _, x => x

mutual

/-- `replace_symbols` -/
def Snode.replaceSymbols (oldsyms newsyms : List String) : Snode → Snode
  | .application l r s =>
    .application (l.replaceSymbols oldsyms newsyms) (r.replaceSymbols oldsyms newsyms) s
  | .letrec bs b => .letrec (bs.replaceSymbols oldsyms newsyms) (b.replaceSymbols oldsyms newsyms)
  | .symbol x => .symbol (replaceName oldsyms newsyms x)
  | .lambda x b => .lambda x b
  | .builtin b => .builtin b
  | .scref i => .scref i
  | .nil => .nil
  | .number d => .number d
  | .string s => .string s

def Letrec.replaceSymbols (oldsyms newsyms : List String) : Letrec → Letrec
  | .done => .done
  | .bind x v s next =>
    .bind x (v.replaceSymbols oldsyms newsyms) s (next.replaceSymbols oldsyms newsyms)

end

/-- The bindings of the arguments. The loop goes up the spine, so the last argument is bound
first; `strict` is `asc->strictin`. -/
def argBindings : List String → List Snode → List Bool → Letrec → Letrec
  | x :: newsyms, a :: args, strict, bs =>
    argBindings newsyms args strict.tail (.bind x a (strict.headD false) bs)
  | _, _, _, bs => bs

/-- The array `newsyms`: names are taken for the last argument first. -/
def freshNames (n nargs : Nat) : List String := ((List.range' n nargs).map nextVar).reverse

theorem length_freshNames (n nargs : Nat) : (freshNames n nargs).length = nargs := by
  simp [freshNames]

theorem nodup_freshNames (n nargs : Nat) : (freshNames n nargs).Nodup := by
  rw [freshNames, List.nodup_reverse]
  exact List.Nodup.map (fun _ _ h => nextVar_inj h) (List.nodup_range' 1)

theorem mem_freshNames {n nargs : Nat} {y : String} (h : y ∈ freshNames n nargs) :
    ∃ k, n ≤ k ∧ k < n + nargs ∧ y = nextVar k := by
  simp only [freshNames, List.mem_reverse, List.mem_map, List.mem_range'_1] at h
  obtain ⟨k, ⟨h1, h2⟩, rfl⟩ := h
  exact ⟨k, h1, h2, rfl⟩

/-- The replacement of a saturated call with arguments. -/
def inlineCall (n : Nat) (asc : Scomb) (args : List Snode) : Snode × Nat :=
  let newsyms := freshNames n asc.nargs
  let (body, n') := copyScombBody (n + asc.nargs) asc newsyms
  (.letrec (argBindings newsyms args (asc.strictin.getD []) .done)
    (body.replaceSymbols asc.argnames newsyms), n')

/-- The test of `inline_r`: a saturated call of a supercombinator that can be inlined. -/
def inlinable (scs : List Scomb) (e : Snode) : Option (Nat × Scomb × List Snode) :=
  match e.unwind [] with
  | (.scref i, args) =>
    match scs[i]? with
    | some sc => if args.length = sc.nargs ∧ sc.caninline then some (i, sc, args) else none
    | none => none
  | _ => none

mutual

/-- `inline_r` on a node of the body of supercombinator `self`. -/
def inlineR (scs : List Scomb) (self : Nat) (ctx : Snode → Snode) (n : Nat) :
    Snode → Option (Snode × Nat × Bool)
  | .application l r s =>
    match inlinable scs (.application l r s) with
    | some (i, asc, args) =>
      if i = self then none
      else
        let (e, n') := inlineCall n asc args
        some (e, n', true)
    | none => do
      let (l', n1, c1) ← inlineR scs self (fun e => ctx (.application e r s)) n l
      let (r', n2, c2) ← inlineR scs self (fun e => ctx (.application l' e s)) n1 r
      return (.application l' r' s, n2, c1 || c2)
  | .letrec bs b => do
    let (bs', n1, c1) ← inlineBindings scs self (fun e => ctx (.letrec e b)) n bs
    let (b', n2, c2) ← inlineR scs self (fun e => ctx (.letrec bs' e)) n1 b
    return (.letrec bs' b', n2, c1 || c2)
  | .scref i =>
    match inlinable scs (.scref i) with
    | some (_, asc, _) =>
      let body := if i = self then ctx (.scref i) else asc.body
      -- the copy of a constant does not count as a change
      let (e, n') := copyScombBody n { asc with body := body } []
      some (e, n', false)
    | none => some (.scref i, n, false)
  | .lambda _ _ => none
  | .builtin b => some (.builtin b, n, false)
  | .symbol x => some (.symbol x, n, false)
  | .nil => some (.nil, n, false)
  | .number d => some (.number d, n, false)
  | .string s => some (.string s, n, false)

def inlineBindings (scs : List Scomb) (self : Nat) (ctx : Letrec → Snode) (n : Nat) :
    Letrec → Option (Letrec × Nat × Bool)
  | .done => some (.done, n, false)
  | .bind x v s next => do
    let (v', n1, c1) ← inlineR scs self (fun e => ctx (.bind x e s next)) n v
    let (next', n2, c2) ← inlineBindings scs self (fun e => ctx (.bind x v' s e)) n1 next
    return (.bind x v' s next', n2, c1 || c2)

end

/-- `is_simple` -/
def Snode.isSimple : Snode → Bool
  | .builtin _ | .symbol _ | .scref _ | .nil | .number _ | .string _ => true
  | .application _ _ _ | .lambda _ _ | .letrec _ _ => false

/-- The first loop of `inlining`: the condition that sets `caninline`. -/
def canInline (scs : List Scomb) (sc : Scomb) : Bool :=
  let (a, args) := sc.body.unwind []
  args.all Snode.isSimple &&
    match a with
    | .scref i => (scs[i]?).any (fun asc => args.length == asc.nargs) || args.length == 0
    | .builtin b => args.length == (builtinInfo b).nargs
    | .number _ | .string _ | .nil => args.length == 0
    | _ => false

def markInline (scs : List Scomb) : List Scomb :=
  scs.map (fun sc => { sc with caninline := sc.caninline || canInline scs sc })

/-- One round of the second loop, over the supercombinators from `scno` on. -/
def inlineRound (scno : Nat) : Nat → List Scomb → Nat → Option (List Scomb × Nat × Bool)
  | 0, scs, n => some (scs, n, false)
  | todo + 1, scs, n => do
    let sc ← scs[scno]?
    let (b, n1, c1) ← inlineR scs scno id n sc.body
    let (scs', n2, c2) ← inlineRound (scno + 1) todo (setBody scs scno b) n1
    return (scs', n2, c1 || c2)

/-- The `do`/`while` loop, for at most `fuel` rounds. -/
def inlineRounds : Nat → Source → Option Source
  | 0, _ => none
  | fuel + 1, src => do
    let (scs, n, changed) ← inlineRound 0 src.scombs.length src.scombs src.varno
    if changed then inlineRounds fuel ⟨scs, n⟩ else some ⟨scs, n⟩

/-- `inlining`: `none` if the loop has not ended after `fuel` rounds, or the pass crashes. -/
def inlining (fuel : Nat) (src : Source) : Option Source :=
  inlineRounds fuel { src with scombs := markInline src.scombs }

/-! ## The pass as a sequence of steps -/

/-- One call unfolded, with the counter before and after. -/
inductive InlineCall (scs : List Scomb) (n n' : Nat) : Snode → Snode → Prop
  | call {e e' : Snode} {i : Nat} {asc : Scomb} {args : List Snode} :
      inlinable scs e = some (i, asc, args) → inlineCall n asc args = (e', n') →
      InlineCall scs n n' e e'
  | const {i : Nat} {asc : Scomb} {args : List Snode} {e' : Snode} :
      inlinable scs (.scref i) = some (i, asc, args) → copyScombBody n asc [] = (e', n') →
      InlineCall scs n n' (.scref i) e'

/-- One call unfolded in one body, by the table as it stands. -/
inductive InlineStep : Source → Source → Prop
  | step {scs : List Scomb} {n n' i : Nat} {sc : Scomb} {b' : Snode} : scs[i]? = some sc →
      OneStep (InlineCall scs n n') sc.body b' → InlineStep ⟨scs, n⟩ ⟨setBody scs i b', n'⟩

abbrev InlineSteps := Relation.ReflTransGen InlineStep

theorem setBody_setBody (scs : List Scomb) (i : Nat) (b b' : Snode) :
    setBody (setBody scs i b) i b' = setBody scs i b' := by
  apply List.ext_getElem?
  intro j
  simp only [getElem?_setBody, Option.map_map]
  congr 1
  funext sc
  by_cases h : i = j <;> simp [h]

theorem setBody_self {scs : List Scomb} {i : Nat} {sc : Scomb} (h : scs[i]? = some sc) :
    setBody scs i sc.body = scs := by
  apply List.ext_getElem?
  intro j
  rw [getElem?_setBody]
  by_cases hij : i = j
  · subst hij; simp [h]
  · cases scs[j]? <;> simp [hij]

/-- A tree with a hole: a rewrite in the hole is a rewrite of the tree. -/
def IsCtx (ctx : Snode → Snode) : Prop :=
  ∀ (base : Snode → Snode → Prop) (e e' : Snode), OneStep base e e' → OneStep base (ctx e) (ctx e')

def IsCtxB (ctx : Letrec → Snode) : Prop :=
  ∀ (base : Snode → Snode → Prop) (bs bs' : Letrec), OneStepB base bs bs' →
    OneStep base (ctx bs) (ctx bs')

theorem inlinable_some {scs : List Scomb} {e : Snode} {i : Nat} {asc : Scomb} {args : List Snode}
    (h : inlinable scs e = some (i, asc, args)) :
    e.unwind [] = (.scref i, args) ∧ scs[i]? = some asc ∧ args.length = asc.nargs := by
  unfold inlinable at h
  split at h
  · rename_i j as hu
    split at h
    · split at h
      · rename_i hc
        simp only [Option.some.injEq, Prod.mk.injEq] at h
        obtain ⟨rfl, rfl, rfl⟩ := h
        exact ⟨hu, ‹_›, hc.1⟩
      · cases h
    · cases h
  · cases h

/-- Whether a call is inlined does not depend on the body of another supercombinator. -/
theorem inlinable_setBody {scs : List Scomb} {e : Snode} {i : Nat} {asc : Scomb}
    {args : List Snode} (self : Nat) (b : Snode) (h : inlinable scs e = some (i, asc, args)) :
    inlinable (setBody scs self b) e =
      some (i, if self = i then { asc with body := b } else asc, args) := by
  obtain ⟨hu, hi, hl⟩ := inlinable_some h
  unfold inlinable at h ⊢
  simp only [hu, hi, getElem?_setBody, Option.map_some] at h ⊢
  split at h
  · rename_i hc
    by_cases hs : self = i
    · simp only [hs, if_true, Scomb.nargs] at hc ⊢
      simp [hc]
    · rw [if_neg hs, if_pos hc]
  · cases h

section Steps

variable {scs : List Scomb} {self : Nat} {sc : Scomb}

/-- One unfolding in the hole of `ctx`. -/
theorem InlineStep.ofCall (hself : scs[self]? = some sc) {ctx : Snode → Snode} (hctx : IsCtx ctx)
    {n n' : Nat} {e e' : Snode} (h : InlineCall (setBody scs self (ctx e)) n n' e e') :
    InlineStep ⟨setBody scs self (ctx e), n⟩ ⟨setBody scs self (ctx e'), n'⟩ := by
  have hs : (setBody scs self (ctx e))[self]? = some { sc with body := ctx e } := by
    simp [getElem?_setBody, hself]
  have := InlineStep.step hs (hctx _ _ _ (.here h))
  rwa [setBody_setBody] at this

mutual

/-- A run of `inline_r` is a sequence of steps on the table in which the body of `self` is the
tree around the current node. -/
theorem inlineR_steps (hself : scs[self]? = some sc) : ∀ (e : Snode) {ctx : Snode → Snode}
    {n n' : Nat} {e' : Snode} {c : Bool}, IsCtx ctx → inlineR scs self ctx n e = some (e', n', c) →
    InlineSteps ⟨setBody scs self (ctx e), n⟩ ⟨setBody scs self (ctx e'), n'⟩
  | .application l r s, ctx, n, n', e', c, hctx, h => by
    rw [inlineR] at h
    split at h
    · rename_i i asc args hi
      split at h
      · cases h
      · rename_i hne
        simp only [Option.some.injEq, Prod.mk.injEq] at h
        obtain ⟨rfl, rfl, _⟩ := h
        refine .single (InlineStep.ofCall hself hctx ?_)
        have hi' := inlinable_setBody self (ctx (.application l r s)) hi
        rw [if_neg (Ne.symm hne)] at hi'
        exact .call hi' rfl
    · simp only [Option.bind_eq_bind, Option.bind_eq_some_iff, Prod.exists, Option.pure_def,
        Option.some.injEq, Prod.mk.injEq] at h
      obtain ⟨l', n1, c1, hl, r', n2, c2, hr, rfl, rfl, _⟩ := h
      have h1 := inlineR_steps hself l (fun base e e' h => hctx base _ _ (.left h)) hl
      have h2 := inlineR_steps hself r (fun base e e' h => hctx base _ _ (.right h)) hr
      exact h1.trans h2
  | .letrec bs b, ctx, n, n', e', c, hctx, h => by
    simp only [inlineR, Option.bind_eq_bind, Option.bind_eq_some_iff, Prod.exists,
      Option.pure_def, Option.some.injEq, Prod.mk.injEq] at h
    obtain ⟨bs', n1, c1, hb, b', n2, c2, hr, rfl, rfl, _⟩ := h
    have h1 := inlineBindings_steps hself bs (fun base e e' h => hctx base _ _ (.bindings h)) hb
    have h2 := inlineR_steps hself b (fun base e e' h => hctx base _ _ (.body h)) hr
    exact h1.trans h2
  | .scref i, ctx, n, n', e', c, hctx, h => by
    rw [inlineR] at h
    split at h
    · rename_i j asc args hi
      simp only [Option.some.injEq, Prod.mk.injEq] at h
      obtain ⟨he, hn, _⟩ := h
      obtain rfl : i = j := by
        have := (inlinable_some hi).1
        simp only [Snode.unwind, Prod.mk.injEq, Snode.scref.injEq] at this
        exact this.1
      refine .single (InlineStep.ofCall hself hctx ?_)
      refine .const (inlinable_setBody self (ctx (.scref i)) hi) ?_
      rw [← he, ← hn]
      by_cases hs : i = self
      · simp [hs]
      · simp [hs, Ne.symm hs]
    · simp only [Option.some.injEq, Prod.mk.injEq] at h
      obtain ⟨rfl, rfl, _⟩ := h
      exact .refl
  | .lambda _ _, _, _, _, _, _, _, h => by simp [inlineR] at h
  | .builtin _, _, _, _, _, _, _, h => by
    simp only [inlineR, Option.some.injEq, Prod.mk.injEq] at h
    obtain ⟨rfl, rfl, _⟩ := h
    exact .refl
  | .symbol _, _, _, _, _, _, _, h => by
    simp only [inlineR, Option.some.injEq, Prod.mk.injEq] at h
    obtain ⟨rfl, rfl, _⟩ := h
    exact .refl
  | .nil, _, _, _, _, _, _, h => by
    simp only [inlineR, Option.some.injEq, Prod.mk.injEq] at h
    obtain ⟨rfl, rfl, _⟩ := h
    exact .refl
  | .number _, _, _, _, _, _, _, h => by
    simp only [inlineR, Option.some.injEq, Prod.mk.injEq] at h
    obtain ⟨rfl, rfl, _⟩ := h
    exact .refl
  | .string _, _, _, _, _, _, _, h => by
    simp only [inlineR, Option.some.injEq, Prod.mk.injEq] at h
    obtain ⟨rfl, rfl, _⟩ := h
    exact .refl

theorem inlineBindings_steps (hself : scs[self]? = some sc) : ∀ (bs : Letrec)
    {ctx : Letrec → Snode} {n n' : Nat} {bs' : Letrec} {c : Bool}, IsCtxB ctx →
    inlineBindings scs self ctx n bs = some (bs', n', c) →
    InlineSteps ⟨setBody scs self (ctx bs), n⟩ ⟨setBody scs self (ctx bs'), n'⟩
  | .done, _, _, _, _, _, _, h => by
    simp only [inlineBindings, Option.some.injEq, Prod.mk.injEq] at h
    obtain ⟨rfl, rfl, _⟩ := h
    exact .refl
  | .bind x v s next, ctx, n, n', bs', c, hctx, h => by
    simp only [inlineBindings, Option.bind_eq_bind, Option.bind_eq_some_iff, Prod.exists,
      Option.pure_def, Option.some.injEq, Prod.mk.injEq] at h
    obtain ⟨v', n1, c1, hv, next', n2, c2, hx, rfl, rfl, _⟩ := h
    have h1 := inlineR_steps hself v (fun base e e' h => hctx base _ _ (.value h)) hv
    have h2 := inlineBindings_steps hself next (fun base e e' h => hctx base _ _ (.next h)) hx
    exact h1.trans h2

end

theorem inlineRound_steps : ∀ (todo scno : Nat) {scs scs' : List Scomb} {n n' : Nat} {c : Bool},
    inlineRound scno todo scs n = some (scs', n', c) → InlineSteps ⟨scs, n⟩ ⟨scs', n'⟩
  | 0, scno, scs, scs', n, n', c, h => by
    simp only [inlineRound, Option.some.injEq, Prod.mk.injEq] at h
    obtain ⟨rfl, rfl, _⟩ := h
    exact .refl
  | todo + 1, scno, scs, scs', n, n', c, h => by
    simp only [inlineRound, Option.bind_eq_bind, Option.bind_eq_some_iff, Prod.exists,
      Option.pure_def, Option.some.injEq, Prod.mk.injEq] at h
    obtain ⟨sc, hsc, b, n1, c1, hb, scs2, n2, c2, hr, rfl, rfl, _⟩ := h
    have h1 := inlineR_steps hsc sc.body (fun base e e' h => h) hb
    rw [setBody_self hsc] at h1
    exact h1.trans (inlineRound_steps todo (scno + 1) hr)

theorem inlineRounds_steps : ∀ (fuel : Nat) {src src' : Source},
    inlineRounds fuel src = some src' → InlineSteps src src'
  | 0, _, _, h => by simp [inlineRounds] at h
  | fuel + 1, src, src', h => by
    simp only [inlineRounds, Option.bind_eq_bind, Option.bind_eq_some_iff, Prod.exists] at h
    obtain ⟨scs, n, c, hr, h⟩ := h
    have h1 := inlineRound_steps _ _ hr
    split at h
    · exact h1.trans (inlineRounds_steps fuel h)
    · cases h
      exact h1

end Steps

end Compiler
end NReduce
