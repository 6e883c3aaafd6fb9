import NReduce.Domain.Curry
import NReduce.Runtime.ReductionSound

/-!
# NReduce.Runtime.PureBuiltins

The builtins of `builtins.c` that compute with numbers, conditions and cells, and what they mean. A
builtin is strict in the arguments that it looks at: `meaning` makes an observation of each of them
and goes on with what it says.

`pureBuiltins_right` is what the soundness of the engine asks of its builtins. The other builtins
are left out: a run that comes to one of them gives `none`.
-/

namespace NReduce
namespace Reduction

open Compiler Domain Heap

/-- The arithmetic of the machine, with `setnumber` of its results -/
structure Floats where
  add : Double → Double → Double
  subtract : Double → Double → Double
  multiply : Double → Double → Double
  divide : Double → Double → Double
  fmod : Double → Double → Double
  eq : Double → Double → Bool
  lt : Double → Double → Bool
  le : Double → Double → Bool
  ofChar : UInt8 → Double

/-! ## The functions -/

/-- `tsk->globtruepntr`, the number 1.0 -/
def globtruepntr : Double := 0x3ff0000000000000

def setbool (h : Heap) (b : Bool) : Pntr :=
  if b then .number globtruepntr else .cell h.globnil

namespace Heap

/-- `CELL_NIL == pntrtype(p)` -/
def isNil (h : Heap) : Pntr → Bool
  | .number _ => false
  | .cell c => h.cells c = .nil

/-- `(CELL_CONS == pntrtype(p)) || (CELL_AREF == pntrtype(p))` -/
def isList (h : Heap) : Pntr → Bool
  | .number _ => false
  | .cell c =>
    match h.cells c with
    | .cons _ _ | .aref _ _ _ | .string _ => true
    | _ => false

end Heap

def Pntr.number? : Pntr → Option Double
  | .number d => some d
  | .cell _ => none

/-- The functions that begin with `CHECK_NUMERIC_ARGS` -/
def numeric (f : Heap → Double → Double → Pntr) (h : Heap) : List Pntr → Option (Pntr × Heap)
  | [.number a, .number b] => some (f h a b, h)
  | _ => none

def bAnd (h : Heap) : List Pntr → Option (Pntr × Heap)
  | [p, q] => some (setbool h (!h.isNil q && !h.isNil p), h)
  | _ => none

def bOr (h : Heap) : List Pntr → Option (Pntr × Heap)
  | [p, q] => some (setbool h (!h.isNil q || !h.isNil p), h)
  | _ => none

def bNot (h : Heap) : List Pntr → Option (Pntr × Heap)
  | [p] => some (setbool h (h.isNil p), h)
  | _ => none

def bIf (h : Heap) : List Pntr → Option (Pntr × Heap)
  | [ifc, p, q] => some (if h.isNil ifc then q else p, h)
  | _ => none

def bSeq (h : Heap) : List Pntr → Option (Pntr × Heap)
  | [_, q] => some (q, h)
  | _ => none

def bCons (h : Heap) : List Pntr → Option (Pntr × Heap)
  | [head, tail] =>
    let (res, h) := h.alloc (.cons head tail)
    some (.cell res, h)
  | _ => none

def bHead (F : Floats) (h : Heap) : List Pntr → Option (Pntr × Heap)
  | [.cell arg] =>
    match h.cells arg with
    | .cons x _ | .aref x _ _ => some (x, h)
    | .string s => s.toUTF8.toList.head?.map fun b => (.number (F.ofChar b), h)
    | _ => none
  | _ => none

def bIscons (h : Heap) : List Pntr → Option (Pntr × Heap)
  | [p] => some (setbool h (h.isList p), h)
  | _ => none

/-- The functions of `builtin_info` -/
def pureBuiltins (F : Floats) : Bif → Heap → List Pntr → Option (Pntr × Heap)
  | .add => numeric fun _ a b => .number (F.add a b)
  | .subtract => numeric fun _ a b => .number (F.subtract a b)
  | .multiply => numeric fun _ a b => .number (F.multiply a b)
  | .divide => numeric fun _ a b => .number (F.divide a b)
  | .mod => numeric fun _ a b => .number (F.fmod a b)
  | .eq => numeric fun h a b => setbool h (F.eq a b)
  | .ne => numeric fun h a b => setbool h (!F.eq a b)
  | .lt => numeric fun h a b => setbool h (F.lt a b)
  | .le => numeric fun h a b => setbool h (F.le a b)
  | .gt => numeric fun h a b => setbool h (F.lt b a)
  | .ge => numeric fun h a b => setbool h (F.le b a)
  | .and => bAnd
  | .or => bOr
  | .not => bNot
  | .if_ => bIf
  | .seq => bSeq
  | .cons | .lcons => bCons
  | .head => bHead F
  | .iscons => bIscons
  | _ => fun _ _ => none

/-! ## What they mean -/

inductive Const where
  | number (d : Double)
  | string (s : String)
  | nil
  deriving DecidableEq

/-- An observation of nil -/
def isNilTok : Tok Const → Bool
  | .const .nil => true
  | _ => false

/-- An observation of a list or an array -/
def isListTok : Tok Const → Bool
  | .const (.string _) | .pair | .fst _ | .snd _ => true
  | _ => false

def numberTok : Tok Const → Option Double
  | .const (.number d) => some d
  | _ => none

def boolValue (b : Bool) : Dom Const := {.const (if b then .number globtruepntr else .nil)}

def numericValue (v : Double → Double → Dom Const) (s u : Tok Const) : Dom Const :=
  match s, u with
  | .const (.number a), .const (.number b) => v a b
  | _, _ => ∅

def headValue (F : Floats) : Tok Const → Dom Const
  | .fst t => {t}
  | .const (.string s) =>
    match s.toUTF8.toList.head? with
    | some b => {.const (.number (F.ofChar b))}
    | none => ∅
  | _ => ∅

/-- Strict in the first two arguments -/
def strict₂ (v : Tok Const → Tok Const → Dom Const) (ρ : Env Nat Const) : Dom Const :=
  Dom.bind (ρ 0) fun s => Dom.bind (ρ 1) fun u => v s u

def numberResult (f : Double → Double → Double) : Env Nat Const → Dom Const :=
  strict₂ (numericValue fun a b => {.const (.number (f a b))})

def boolResult (f : Double → Double → Bool) : Env Nat Const → Dom Const :=
  strict₂ (numericValue fun a b => boolValue (f a b))

/-- The value of a builtin, its arguments being the values of 0, 1, ... -/
def meaning (F : Floats) : Bif → Env Nat Const → Dom Const
  | .add => numberResult F.add
  | .subtract => numberResult F.subtract
  | .multiply => numberResult F.multiply
  | .divide => numberResult F.divide
  | .mod => numberResult F.fmod
  | .eq => boolResult F.eq
  | .ne => boolResult fun a b => !F.eq a b
  | .lt => boolResult F.lt
  | .le => boolResult F.le
  | .gt => boolResult fun a b => F.lt b a
  | .ge => boolResult fun a b => F.le b a
  | .and => strict₂ fun s u => boolValue (!isNilTok u && !isNilTok s)
  | .or => strict₂ fun s u => boolValue (!isNilTok u || !isNilTok s)
  | .not => fun ρ => Dom.bind (ρ 0) fun s => boolValue (isNilTok s)
  | .if_ => fun ρ => Dom.bind (ρ 0) fun s => if isNilTok s then ρ 2 else ρ 1
  | .seq => fun ρ => Dom.bind (ρ 0) fun _ => ρ 1
  | .cons | .lcons => fun ρ => Dom.cons (ρ 0) (ρ 1)
  | .head => fun ρ => Dom.bind (ρ 0) fun s => headValue F s
  | .iscons => fun ρ => Dom.bind (ρ 0) fun s => boolValue (isListTok s)
  | _ => fun _ => ∅

theorem meaning_if (F : Floats) (ρ : Env Nat Const) :
    meaning F .if_ ρ = Dom.bind (ρ 0) fun s => if isNilTok s then ρ 2 else ρ 1 := rfl

theorem meaning_seq (F : Floats) (ρ : Env Nat Const) :
    meaning F .seq ρ = Dom.bind (ρ 0) fun _ => ρ 1 := rfl

theorem meaning_head (F : Floats) (ρ : Env Nat Const) :
    meaning F .head ρ = Dom.bind (ρ 0) fun s => headValue F s := rfl

theorem strict₂_finitary (v : Tok Const → Tok Const → Dom Const) : Env.Finitary (strict₂ v) :=
  (Env.Finitary.var 0).bind fun _ => (Env.Finitary.var 1).bind fun _ => .const _

theorem meaning_finitary (F : Floats) (b : Bif) : Env.Finitary (meaning F b) := by
  cases b with
  | add | subtract | multiply | divide | mod | eq | ne | lt | le | gt | ge | and | or =>
    exact strict₂_finitary _
  | not | head | iscons => exact (Env.Finitary.var 0).bind fun _ => .const _
  | seq => exact (Env.Finitary.var 0).bind fun _ => .var 1
  | cons | lcons => exact (Env.Finitary.var 0).cons (.var 1)
  | if_ =>
    refine (Env.Finitary.var 0).bind fun s => ?_
    cases isNilTok s with
    | true => exact .var 2
    | false => exact .var 1
  | _ => exact .const ∅

/-- The values of the constants, and of the builtins as curried functions -/
def pureInterp (F : Floats) : Interp Const where
  builtin b := Env.curry (List.range (builtinInfo b).nargs) (meaning F b) fun _ => ∅
  number d := {.const (.number d)}
  string s := {.const (if s = "" then .nil else .string s)}
  nil := {.const .nil}

theorem appN_builtin (F : Floats) (b : Bif) (as : List (Dom Const))
    (hlen : as.length = (builtinInfo b).nargs) :
    appN ((pureInterp F).builtin b) as =
      meaning F b (Env.bindAll (fun _ => ∅) (List.range (builtinInfo b).nargs) as) :=
  Env.foldl_app_curry (meaning_finitary F b) _ as _ (by rw [hlen, List.length_range])

/-! ## Observations of what has been reduced -/

section

variable {F : Floats} {scs : List Scomb} {h h' : Heap}

theorem lambdas_append (xs ys : List String) (b : Snode) :
    lambdas (xs ++ ys) b = lambdas xs (lambdas ys b) :=
  List.foldr_append

/-- A supercombinator that lacks arguments is a function. -/
theorem appN_lambdas_fn {K : Type} (I : Interp K) (xs : List String) (b : Snode)
    (as : List (Dom K)) (ρ : Env Key K) (hlen : as.length < xs.length) :
    ∃ f, appN (denote I (lambdas xs b) ρ) as = Dom.lam f := by
  have hsplit := List.take_append_drop as.length xs
  rw [← hsplit, lambdas_append,
    appN_lambdas I _ _ _ _ (by rw [List.length_take]; omega)]
  cases hdrop : xs.drop as.length with
  | nil =>
    have := List.drop_eq_nil_iff.mp hdrop
    omega
  | cons y ys => exact ⟨_, rfl⟩

/-- What `pntrtype` says of the result, and the number that it is, are seen in each observation of
its value. -/
theorem Whnf.observe {a : Pntr} (ha : h.Resolves a a) (hwf : h.Wf) (hw : Whnf scs h a) :
    (∃ s, s ∈ a.value (pureInterp F) (heapValue (pureInterp F) scs h)) ∧
      ∀ s ∈ a.value (pureInterp F) (heapValue (pureInterp F) scs h),
        isNilTok s = h.isNil a ∧ isListTok s = h.isList a ∧ numberTok s = a.number? := by
  cases hw with
  | number hp =>
    obtain rfl := ha.unique hp
    refine ⟨⟨_, rfl⟩, fun s hs => ?_⟩
    obtain rfl := hs
    exact ⟨rfl, rfl, rfl⟩
  | @data c hp hc =>
    obtain rfl := ha.unique hp
    simp only [Pntr.value, Heap.isNil, Heap.isList]
    rw [heapValue_cell]
    cases hcell : h.cells c with
    | cons x y | aref x xs y =>
      refine ⟨⟨.pair, .inl rfl⟩, fun s hs => ?_⟩
      obtain rfl | ⟨u, -, rfl⟩ | ⟨u, -, rfl⟩ := hs <;> exact ⟨rfl, rfl, rfl⟩
    | string x =>
      have hx : x ≠ "" := by
        have hin := hwf.inside c
        rwa [hcell] at hin
      simp only [Cell.value, pureInterp, if_neg hx]
      refine ⟨⟨_, rfl⟩, fun s hs => ?_⟩
      obtain rfl := hs
      exact ⟨rfl, rfl, rfl⟩
    | nil =>
      refine ⟨⟨_, rfl⟩, fun s hs => ?_⟩
      obtain rfl := hs
      exact ⟨rfl, rfl, rfl⟩
    | _ => simp [hcell, Cell.isData] at hc
  | @function t i sc s q hp hs ht hsc hlen =>
    obtain rfl := ha.unique hp
    have hind : ∀ c p, h.cells c = .ind p → heapValue (pureInterp F) scs h c =
        p.value (pureInterp F) (heapValue (pureInterp F) scs h) := by
      intro c p hc
      rw [heapValue_cell, hc]
      rfl
    have htip : (Pntr.cell t).value (pureInterp F) (heapValue (pureInterp F) scs h) =
        denote (pureInterp F) (lambdas sc.argnames sc.body) (progEnv (pureInterp F) scs) := by
      rw [Pntr.value, heapValue_cell, ht, Cell.value, progEnv_sc _ hsc]
    obtain ⟨f, hf⟩ := appN_lambdas_fn (pureInterp F) sc.argnames sc.body
      ((args s).map (·.value (pureInterp F) (heapValue (pureInterp F) scs h)))
      (progEnv (pureInterp F) scs) (by rwa [List.length_map, args_length])
    rw [hs.value (pureInterp F) scs hind fun b _ => heapValue_cell (pureInterp F) scs h b.1, htip,
      hf]
    have hroot : h.isNil a = false ∧ h.isList a = false ∧ a.number? = none := by
      cases hs with
      | tip => simp [Heap.isNil, Heap.isList, ht, Pntr.number?]
      | app hc _ _ => simp [Heap.isNil, Heap.isList, hc, Pntr.number?]
    obtain ⟨h1, h2, h3⟩ := hroot
    rw [h1, h2, h3]
    refine ⟨⟨.fn, .inl rfl⟩, fun s hs => ?_⟩
    obtain rfl | ⟨ts, u, rfl, -⟩ := hs <;> exact ⟨rfl, rfl, rfl⟩

/-! ## The builtins are right -/

theorem Pntr.value_cell {K : Type} (I : Interp K) (c : Nat) (σ : Values K) :
    (Pntr.cell c).value I σ = σ c := rfl

theorem Pntr.value_le {K : Type} (I : Interp K) {n : Nat} {σ τ : Values K} {p : Pntr}
    (hp : p.Inside n) (hστ : ∀ c < n, σ c ⊆ τ c) : p.value I σ ⊆ p.value I τ := by
  cases p with
  | number d => exact le_refl _
  | cell c => exact hστ c hp

theorem KeepsData.refl (h : Heap) : KeepsData h h := fun c hc => by
  refine ⟨c, .cell fun p hp => ?_, hc⟩
  rw [hp] at hc
  cases hc

/-- A builtin that makes no cells -/
theorem Builds.of_bounds {K : Type} {I : Interp K} {res : Pntr} {v : Values K → Dom K} (hw : h.Wf)
    (hres : res.Inside h.ncells)
    (upper : res.value I (heapValue I scs h) ⊆ v (heapValue I scs h))
    (lower : ∀ σ : Values K, (∀ c < h.ncells, σ c ⊆ heapValue I scs h c) →
      (∀ c, (h.cells c).isRedex = false → σ c = (h.cells c).value I scs σ) →
      v σ ⊆ res.value I σ) : Builds I scs h h res v where
  wf := hw
  le := Nat.le_refl _
  inside := hres
  kept _ _ _ := rfl
  upper := ⟨heapValue I scs h, fun _ _ => rfl,
    fun c _ => by rw [← heapValue_cell], upper⟩
  lower σ hσ heq := by
    refine ⟨lower σ hσ heq, fun c hc => ?_⟩
    have hr : (h.cells c).isRedex = false := by
      cases hcell : h.cells c <;> simp_all [Cell.isData, Cell.isRedex]
    rw [← heq c hr]

/-- The values of the arguments, as `meaning` takes them -/
def argEnv (I : Interp Const) (args : List Pntr) (σ : Values Const) : Env Nat Const :=
  Env.bindAll (fun _ => ∅) (List.range args.length) (args.map (·.value I σ))

theorem argEnv_one (I : Interp Const) (p : Pntr) (σ : Values Const) :
    argEnv I [p] σ 0 = p.value I σ := by
  simp [argEnv, List.range_succ, Env.bindAll]

theorem argEnv_two (I : Interp Const) (p q : Pntr) (σ : Values Const) :
    argEnv I [p, q] σ 0 = p.value I σ ∧ argEnv I [p, q] σ 1 = q.value I σ := by
  simp [argEnv, List.range_succ, Env.bindAll]

theorem argEnv_three (I : Interp Const) (p q r : Pntr) (σ : Values Const) :
    argEnv I [p, q, r] σ 0 = p.value I σ ∧ argEnv I [p, q, r] σ 1 = q.value I σ ∧
      argEnv I [p, q, r] σ 2 = r.value I σ := by
  simp [argEnv, List.range_succ, Env.bindAll]

theorem argEnv_mono (I : Interp Const) {args : List Pntr} {n : Nat} {σ τ : Values Const}
    (hargs : ∀ a ∈ args, a.Inside n) (hστ : ∀ c < n, σ c ⊆ τ c) :
    argEnv I args σ ≤ argEnv I args τ := by
  apply Env.bindAll_mono
  · rw [List.forall₂_map_left_iff, List.forall₂_map_right_iff, List.forall₂_same]
    exact fun a ha => Pntr.value_le I (hargs a ha) hστ
  · exact le_refl _

/-- The function `f` of the builtin `b` is right. -/
def RightAt (F : Floats) (scs : List Scomb) (b : Bif)
    (f : Heap → List Pntr → Option (Pntr × Heap)) : Prop :=
  ∀ h args res h', h.Wf → (∀ a ∈ args, a.Inside h.ncells) → args.length = (builtinInfo b).nargs →
    (∀ a ∈ args.take (builtinInfo b).nstrict, h.Resolves a a ∧ h.application? a = none ∧
      Whnf scs h a) →
    f h args = some (res, h') →
    Builds (pureInterp F) scs h h' res (fun σ => meaning F b (argEnv (pureInterp F) args σ)) ∧
      KeepsData h h'

/-- A result that is a number or the nil of the task -/
theorem builds_const {b : Bif} {args : List Pntr} {res : Pntr} {d : Dom Const} (hw : h.Wf)
    (hargs : ∀ a ∈ args, a.Inside h.ncells) (hres : res.Inside h.ncells)
    (hd : ∀ σ : Values Const, σ h.globnil = (pureInterp F).nil → res.value (pureInterp F) σ = d)
    (hv : meaning F b (argEnv (pureInterp F) args (heapValue (pureInterp F) scs h)) = d) :
    Builds (pureInterp F) scs h h res (fun σ => meaning F b (argEnv (pureInterp F) args σ)) := by
  apply Builds.of_bounds hw hres
  · rw [hv, hd _ (by rw [heapValue_cell, hw.globnil]; rfl)]
  · intro σ hσ heq
    rw [hd σ (by rw [heq _ (by rw [hw.globnil]; rfl), hw.globnil]; rfl), ← hv]
    exact (meaning_finitary F b).mono (argEnv_mono _ hargs hσ)

theorem setbool_inside (hw : h.Wf) (b : Bool) : (setbool h b).Inside h.ncells := by
  cases b with
  | true => trivial
  | false => exact hw.globnil_lt

theorem setbool_value (b : Bool) (σ : Values Const) (hσ : σ h.globnil = (pureInterp F).nil) :
    (setbool h b).value (pureInterp F) σ = boolValue b := by
  cases b with
  | true => rfl
  | false => exact hσ

theorem right_numeric {b : Bif} {f : Heap → Double → Double → Pntr}
    {g : Double → Double → Dom Const} (hb : meaning F b = strict₂ (numericValue g))
    (hf : ∀ (h : Heap) x y, h.Wf → (f h x y).Inside h.ncells)
    (hv : ∀ (h : Heap) x y (σ : Values Const), σ h.globnil = (pureInterp F).nil →
      (f h x y).value (pureInterp F) σ = g x y) : RightAt F scs b (numeric f) := by
  intro h args res h' hw hargs hlen hstrict hrun
  unfold numeric at hrun
  split at hrun
  · next x y =>
    cases hrun
    refine ⟨builds_const hw hargs (hf h x y hw) (hv h x y) ?_, .refl h⟩
    obtain ⟨h0, h1⟩ := argEnv_two (pureInterp F) (.number x) (.number y)
      (heapValue (pureInterp F) scs h)
    rw [hb, strict₂, h0, h1]
    simp only [Pntr.value, pureInterp, Dom.bind_singleton, numericValue]
  · cases hrun

theorem right_number {b : Bif} {f : Double → Double → Double} (hb : meaning F b = numberResult f) :
    RightAt F scs b (numeric fun _ x y => .number (f x y)) :=
  right_numeric hb (fun _ _ _ _ => trivial) (fun _ _ _ _ _ => rfl)

theorem right_compare {b : Bif} {f : Double → Double → Bool} (hb : meaning F b = boolResult f) :
    RightAt F scs b (numeric fun h x y => setbool h (f x y)) :=
  right_numeric hb (fun _ _ _ hw => setbool_inside hw _) (fun _ _ _ σ hσ => setbool_value _ σ hσ)

/-- `b_and` and `b_or` -/
theorem right_logical {b : Bif} {f : Heap → List Pntr → Option (Pntr × Heap)}
    (g : Bool → Bool → Bool) (hn : (builtinInfo b).nargs = 2) (hs : (builtinInfo b).nstrict = 2)
    (hb : meaning F b = strict₂ fun s u => boolValue (g (isNilTok s) (isNilTok u)))
    (hf : ∀ h p q, f h [p, q] = some (setbool h (g (h.isNil p) (h.isNil q)), h)) :
    RightAt F scs b f := by
  intro h args res h' hw hargs hlen hstrict hrun
  rw [hn] at hlen
  rw [hs] at hstrict
  obtain ⟨p, q, rfl⟩ := List.length_eq_two.mp hlen
  rw [hf] at hrun
  cases hrun
  refine ⟨builds_const hw hargs (setbool_inside hw _) (setbool_value _) ?_, .refl h⟩
  obtain ⟨hp, -, hpw⟩ := hstrict p (by simp)
  obtain ⟨hq, -, hqw⟩ := hstrict q (by simp)
  obtain ⟨hp0, hps⟩ := Whnf.observe (F := F) hp hw hpw
  obtain ⟨hq0, hqs⟩ := Whnf.observe (F := F) hq hw hqw
  obtain ⟨h0, h1⟩ := argEnv_two (pureInterp F) p q (heapValue (pureInterp F) scs h)
  rw [hb, strict₂, h0, h1]
  apply Dom.bind_eq hp0
  intro s hs
  apply Dom.bind_eq hq0
  intro u hu
  rw [(hps s hs).1, (hqs u hu).1]

/-- `b_not` and `b_iscons` -/
theorem right_test {b : Bif} {f : Heap → List Pntr → Option (Pntr × Heap)}
    (g : Tok Const → Bool) (t : Heap → Pntr → Bool) (hn : (builtinInfo b).nargs = 1)
    (hs : (builtinInfo b).nstrict = 1)
    (hb : meaning F b = fun ρ => Dom.bind (ρ 0) fun s => boolValue (g s))
    (hf : ∀ h p, f h [p] = some (setbool h (t h p), h))
    (hg : ∀ {h : Heap} {p : Pntr} {s : Tok Const}, isNilTok s = h.isNil p ∧
      isListTok s = h.isList p ∧ numberTok s = p.number? → g s = t h p) : RightAt F scs b f := by
  intro h args res h' hw hargs hlen hstrict hrun
  rw [hn] at hlen
  rw [hs] at hstrict
  obtain ⟨p, rfl⟩ := List.length_eq_one_iff.mp hlen
  rw [hf] at hrun
  cases hrun
  refine ⟨builds_const hw hargs (setbool_inside hw _) (setbool_value _) ?_, .refl h⟩
  obtain ⟨hp, -, hpw⟩ := hstrict p (by simp)
  obtain ⟨hp0, hps⟩ := Whnf.observe (F := F) hp hw hpw
  simp only [hb, argEnv_one]
  apply Dom.bind_eq hp0
  intro s hs
  rw [hg (hps s hs)]

theorem right_if : RightAt F scs .if_ bIf := by
  intro h args res h' hw hargs hlen hstrict hrun
  obtain ⟨ifc, p, q, rfl⟩ := List.length_eq_three.mp hlen
  cases hrun
  obtain ⟨hc, -, hcw⟩ := hstrict ifc (by simp [builtinInfo])
  obtain ⟨hc0, hcs⟩ := Whnf.observe (F := F) hc hw hcw
  refine ⟨Builds.of_bounds hw ?_ ?_ ?_, .refl h⟩
  · split
    · exact hargs q (by simp)
    · exact hargs p (by simp)
  · obtain ⟨h0, h1, h2⟩ := argEnv_three (pureInterp F) ifc p q (heapValue (pureInterp F) scs h)
    simp only [meaning_if, h0, h1, h2]
    rw [Dom.bind_eq hc0 fun s hs => by rw [(hcs s hs).1]]
    cases h.isNil ifc <;> exact le_refl _
  · intro σ hσ _
    obtain ⟨h0, h1, h2⟩ := argEnv_three (pureInterp F) ifc p q σ
    simp only [meaning_if, h0, h1, h2]
    apply Dom.bind_subset
    intro s hs
    rw [(hcs s (Pntr.value_le _ (hargs ifc (by simp)) hσ hs)).1]
    cases h.isNil ifc <;> exact le_refl _

theorem right_seq : RightAt F scs .seq bSeq := by
  intro h args res h' hw hargs hlen hstrict hrun
  obtain ⟨p, q, rfl⟩ := List.length_eq_two.mp hlen
  cases hrun
  obtain ⟨hp, -, hpw⟩ := hstrict p (by simp [builtinInfo])
  obtain ⟨hp0, -⟩ := Whnf.observe (F := F) hp hw hpw
  refine ⟨Builds.of_bounds hw (hargs res (by simp)) ?_ ?_, .refl h⟩
  · obtain ⟨h0, h1⟩ := argEnv_two (pureInterp F) p res (heapValue (pureInterp F) scs h)
    simp only [meaning_seq, h0, h1]
    rw [Dom.bind_eq hp0 fun _ _ => rfl]
  · intro σ hσ _
    obtain ⟨h0, h1⟩ := argEnv_two (pureInterp F) p res σ
    simp only [meaning_seq, h0, h1]
    exact Dom.bind_subset fun _ _ => le_refl _

theorem bind_headValue (x t : Dom Const) : Dom.bind (Dom.cons x t) (headValue F) = x := by
  apply Set.Subset.antisymm
  · rintro u ⟨s, rfl | ⟨v, hv, rfl⟩ | ⟨v, -, rfl⟩, hu⟩
    · cases hu
    · rwa [Set.mem_singleton_iff.mp hu]
    · cases hu
  · intro u hu
    exact ⟨.fst u, .inr (.inl ⟨u, hu, rfl⟩), rfl⟩

/-- The first element of a cell that is a list -/
theorem builds_head {c : Nat} {x : Pntr} (hw : h.Wf) (hx : x.Inside h.ncells)
    (hr : (h.cells c).isRedex = false)
    (hv : ∀ σ, ∃ t, (h.cells c).value (pureInterp F) scs σ =
      Dom.cons (x.value (pureInterp F) σ) t) :
    Builds (pureInterp F) scs h h x
      (fun σ => meaning F .head (argEnv (pureInterp F) [.cell c] σ)) := by
  apply Builds.of_bounds hw hx
  · obtain ⟨t, ht⟩ := hv (heapValue (pureInterp F) scs h)
    simp only [meaning_head, argEnv_one, Pntr.value_cell]
    rw [heapValue_cell, ht, bind_headValue]
  · intro σ _ heq
    obtain ⟨t, ht⟩ := hv σ
    simp only [meaning_head, argEnv_one, Pntr.value_cell]
    rw [heq c hr, ht, bind_headValue]

theorem right_head : RightAt F scs .head (bHead F) := by
  intro h args res h' hw hargs hlen hstrict hrun
  obtain ⟨p, rfl⟩ := List.length_eq_one_iff.mp hlen
  cases p with
  | number d => cases hrun
  | cell c =>
    have hin := hw.inside c
    cases hcell : h.cells c with
    | cons x y | aref x xs y =>
      simp only [bHead, hcell] at hrun
      cases hrun
      rw [hcell] at hin
      exact ⟨builds_head hw hin.1 (by rw [hcell]; rfl) fun σ => ⟨_, by rw [hcell]; rfl⟩, .refl h⟩
    | string x =>
      rw [hcell] at hin
      simp only [bHead, hcell, Option.map_eq_some_iff] at hrun
      obtain ⟨b, hb, hrun⟩ := hrun
      cases hrun
      refine ⟨builds_const hw hargs trivial (fun _ _ => rfl) ?_, .refl h⟩
      simp only [meaning_head, argEnv_one, Pntr.value_cell]
      rw [heapValue_cell, hcell]
      simp only [Cell.value, pureInterp, if_neg (show x ≠ "" from hin), Dom.bind_singleton,
        headValue, hb]
      rfl
    | _ =>
      simp only [bHead, hcell] at hrun
      cases hrun

theorem builds_cons {p q : Pntr} (hw : h.Wf) (hp : p.Inside h.ncells) (hq : q.Inside h.ncells) :
    Builds (pureInterp F) scs h (h.alloc (.cons p q)).2 (.cell h.ncells)
      (fun σ => Dom.cons (p.value (pureInterp F) σ) (q.value (pureInterp F) σ)) := by
  have hg : h.Grows (h.alloc (.cons p q)).2 := hw.alloc ⟨hp, hq⟩
  refine ⟨hg.wf, hg.le, Nat.lt_succ_self _, fun c hc _ => hg.cells c hc, ?_, fun σ _ heq => ?_⟩
  · let τ : Values Const := Function.update (heapValue (pureInterp F) scs h) h.ncells
      (Dom.cons (p.value (pureInterp F) (heapValue (pureInterp F) scs h))
        (q.value (pureInterp F) (heapValue (pureInterp F) scs h)))
    have hτ : ∀ c < h.ncells, τ c = heapValue (pureInterp F) scs h c :=
      fun c hc => Function.update_of_ne (Nat.ne_of_lt hc) _ _
    have hnew : τ h.ncells = _ := Function.update_self _ _ _
    refine ⟨τ, hτ, fun c _ => ?_, le_of_eq hnew⟩
    by_cases hc : c = h.ncells
    · rw [hc, alloc_self, hnew, Cell.value, Pntr.value_congr _ hp hτ, Pntr.value_congr _ hq hτ]
    · rw [alloc_of_ne h _ hc]
      by_cases hlt : c < h.ncells
      · rw [Cell.value_congr _ scs (hw.inside c) hτ, hτ c hlt, ← heapValue_cell]
      · rw [hw.fresh c (Nat.le_of_not_lt hlt)]
        exact Set.empty_subset _
  · refine ⟨?_, fun c hc => ?_⟩
    · have hnew := heq h.ncells (by rw [hw.fresh _ (Nat.le_refl _)]; rfl)
      rw [alloc_self] at hnew
      exact le_of_eq hnew.symm
    · have hlt : c < h.ncells := hw.lt fun he => by simp [he, Cell.isData] at hc
      have hr : (h.cells c).isRedex = false := by
        cases hcell : h.cells c <;> simp_all [Cell.isData, Cell.isRedex]
      rw [heq c hr, alloc_of_ne h _ (Nat.ne_of_lt hlt)]

theorem right_cons {b : Bif} (hn : (builtinInfo b).nargs = 2)
    (hb : meaning F b = fun ρ => Dom.cons (ρ 0) (ρ 1)) : RightAt F scs b bCons := by
  intro h args res h' hw hargs hlen _ hrun
  rw [hn] at hlen
  obtain ⟨p, q, rfl⟩ := List.length_eq_two.mp hlen
  cases hrun
  have hbuilds : Builds (pureInterp F) scs h _ _ _ :=
    builds_cons hw (hargs p (by simp)) (hargs q (by simp))
  refine ⟨?_, fun c hc => ?_⟩
  · simp only [hb, (argEnv_two (pureInterp F) p q _).1, (argEnv_two (pureInterp F) p q _).2]
    exact hbuilds
  · have hlt : c < h.ncells := hw.lt fun he => by simp [he, Cell.isData] at hc
    have hcell : (h.alloc (.cons p q)).2.cells c = h.cells c := alloc_of_ne h _ (Nat.ne_of_lt hlt)
    refine ⟨c, .cell fun r hr => ?_, (congrArg Cell.isData hcell).trans hc⟩
    rw [hcell.symm.trans hr] at hc
    cases hc

theorem pureBuiltins_rightAt (b : Bif) : RightAt F scs b (pureBuiltins F b) := by
  cases b with
  | add | subtract | multiply | divide | mod => exact right_number rfl
  | eq | ne | lt | le | gt | ge => exact right_compare rfl
  | and => exact right_logical (fun s u => !u && !s) rfl rfl rfl fun _ _ _ => rfl
  | or => exact right_logical (fun s u => !u || !s) rfl rfl rfl fun _ _ _ => rfl
  | not => exact right_test isNilTok Heap.isNil rfl rfl rfl (fun _ _ => rfl) fun h => h.1
  | iscons =>
    exact right_test isListTok Heap.isList rfl rfl rfl (fun _ _ => rfl) fun h => h.2.1
  | if_ => exact right_if
  | seq => exact right_seq
  | cons | lcons => exact right_cons rfl rfl
  | head => exact right_head
  | _ =>
    intro h args res h' _ _ _ _ hrun
    cases hrun

/-- Every builtin that is modelled computes the function that `meaning` says. -/
theorem pureBuiltins_right (F : Floats) (scs : List Scomb) :
    RightBuiltins (pureInterp F) scs (pureBuiltins F) := by
  intro b h args res h' hw hargs hlen hstrict hrun
  obtain ⟨hb, hdata⟩ := pureBuiltins_rightAt b h args res h' hw hargs hlen hstrict hrun
  refine ⟨?_, hdata⟩
  have hv : (fun σ => meaning F b (argEnv (pureInterp F) args σ)) =
      fun σ => appN ((pureInterp F).builtin b) (args.map (·.value (pureInterp F) σ)) := by
    funext σ
    rw [appN_builtin F b _ (by rw [List.length_map, hlen]), argEnv, hlen]
  rw [← hv]
  exact hb

end

end Reduction
end NReduce
