import NReduce.Compiler.Strictness
import Mathlib.Data.List.Forall2

/-!
# NReduce.Compiler.Demand

What the evaluation of an expression is certain to ask for, in terms of call-by-need evaluation.

`Demands c x`: every evaluation of `c` to weak head normal form asks for the variable `x`. One rule
for each kind of expression: a call demands what its strict arguments demand, `if` what both
branches demand, and a letrec what its body and the bindings that are demanded demand.
-/

namespace NReduce
namespace Compiler

variable {D : Type}

section

variable (P : Prims D) (scs : List Scomb)

def Demands (c : Snode) (x : String) : Prop :=
  ∀ ⦃Γ Δ : Store D⦄ ⦃ρ : Locals⦄ ⦃v : Whnf D⦄ ⦃F : Set Loc⦄,
    Runs P scs Γ (.eval ρ c.unmark) Δ v F → ∀ l, ρ x = some l → l ∈ F

/-- Every evaluation of the body `b`, with the bindings `bs` suspended, asks for the variable `x`. -/
def DemandsIn (bs : Letrec) (b : Snode) (x : String) : Prop :=
  ∀ ⦃Γ Δ : Store D⦄ ⦃ρ : Locals⦄ ⦃ls : List Loc⦄ ⦃v : Whnf D⦄ ⦃F : Set Loc⦄,
    ls.length = bs.names.length → ls.Nodup → (∀ l ∈ ls, Γ l = none) →
    Runs P scs (Γ.suspend (ρ.bind bs.names ls) bs.unmark ls) (.eval (ρ.bind bs.names ls) b.unmark)
      Δ v F → ∀ l, ρ.bind bs.names ls x = some l → l ∈ F

/-- A saturated call of supercombinator `i` asks for its argument number `a`. -/
def StrictIn (i a : Nat) : Prop :=
  ∀ ⦃Γ Δ : Store D⦄ ⦃args : List Loc⦄ ⦃v : Whnf D⦄ ⦃F : Set Loc⦄,
    (Head.sc i).arity scs = some args.length → Runs P scs Γ (.apply (.sc i) args) Δ v F →
    ∀ l, args[a]? = some l → l ∈ F

end

variable {P : Prims D} {scs : List Scomb} {Γ Δ : Store D} {ρ : Locals} {v : Whnf D} {F : Set Loc}

/-- An expression that is evaluated asks for what it demands. -/
theorem Evaluated.demands {c : Snode} {x : String} (h : Evaluated P scs ρ c.unmark F)
    (hd : Demands P scs c x) {l : Loc} (hl : ρ x = some l) : l ∈ F := by
  obtain ⟨Γ, Δ, v, F', hr, hsub⟩ := h
  exact hsub (hd hr l hl)

theorem Runs.mem_force {l : Loc} (h : Runs P scs Γ (.force l) Δ v F) : l ∈ F := by
  cases h with
  | found _ => exact Set.mem_singleton _
  | force _ _ => exact Set.mem_insert _ _

theorem demands_symbol (x : String) : Demands P scs (.symbol x) x := by
  intro Γ Δ ρ v F hr l hl
  cases hr with
  | symbol hx hf =>
    rw [hl] at hx
    cases hx
    exact hf.mem_force

theorem Demands.application {l : Snode} {x : String} (h : Demands P scs l x) (r : Snode)
    (s : Bool) : Demands P scs (.application l r s) x := by
  intro Γ Δ ρ v F hr m hm
  cases hr with
  | application hf _ _ => exact Or.inl (h hf m hm)

/-! ## Calls -/

/-- The arguments of an application, from the first to the last. -/
def Snode.args : Snode → List Snode
  | .application l r _ => l.args ++ [r]
  | _ => []

theorem length_args (c : Snode) : c.args.length = c.spine.2 := by
  fun_induction Snode.spine c with
  | case1 l r s ih => simp [Snode.args, ih]
  | case2 c hc => cases c <;> first | rfl | exact absurd rfl (hc _ _ _)

/-- The nodes `ls` hold the expressions `as`, suspended. -/
def SuspendAll (ls : List Loc) (as : List Snode) (ρ : Locals) (Γ : Store D) : Prop :=
  List.Forall₂ (fun l a => Suspends l a.unmark ρ Γ) ls as

theorem SuspendAll.get {ls : List Loc} {as : List Snode} (h : SuspendAll ls as ρ Γ) {j : Nat}
    {a : Snode} (ha : as[j]? = some a) : ∃ l, ls[j]? = some l ∧ Suspends l a.unmark ρ Γ := by
  induction h generalizing j with
  | nil => simp at ha
  | cons h1 _ ih =>
    cases j with
    | zero =>
      rw [List.getElem?_cons_zero, Option.some.injEq] at ha
      subst ha
      exact ⟨_, rfl, h1⟩
    | succ j =>
      rw [List.getElem?_cons_succ] at ha
      exact ih ha

theorem SuspendAll.concat {ls : List Loc} {as : List Snode} (h : SuspendAll ls as ρ Γ) {l : Loc}
    (hl : Γ l = none) (a : Snode) :
    SuspendAll (ls ++ [l]) (as ++ [a]) ρ (Function.update Γ l (some (.suspended a.unmark ρ))) := by
  refine List.rel_append (h.imp ?_) (List.Forall₂.cons ?_ List.Forall₂.nil)
  · intro l' a' hs
    exact hs.update (hs.ne_of_none hl)
  · rw [Suspends, Function.update_self]

/-- A function of too few arguments is a value. -/
theorem Runs.head {h : Head} {e : Snode} (he : e.head = some h) {k : Nat}
    (hk : h.arity scs = some k) (hpos : 0 < k) (hr : Runs P scs Γ (.eval ρ e.unmark) Δ v F) :
    v = .fn h [] ∧ Δ = Γ := by
  have hap : Runs P scs Γ (.apply h []) Δ v F := by
    cases e <;> simp only [Snode.head, Option.some.injEq, reduceCtorEq] at he
    · subst he
      cases hr with
      | builtin hr => exact hr
    · subst he
      cases hr with
      | scref hr => exact hr
  cases hap with
  | lacking _ _ => exact ⟨rfl, rfl⟩
  | call hi hlen _ =>
    simp only [Head.arity, hi, Option.map_some, Option.some.injEq] at hk
    simp only [List.length_nil] at hlen
    omega
  | prim hlen _ =>
    simp only [Head.arity, Option.some.injEq] at hk
    simp only [List.length_nil] at hlen
    omega

/-- An application to too few arguments: they are suspended. -/
theorem Runs.spine {h : Head} {k : Nat} (hk : h.arity scs = some k) :
    ∀ (c : Snode) {Γ Δ : Store D} {ρ : Locals} {v : Whnf D} {F : Set Loc},
      c.spine.1.head = some h → c.spine.2 < k → Runs P scs Γ (.eval ρ c.unmark) Δ v F →
      ∃ ls, v = .fn h ls ∧ SuspendAll ls c.args ρ Δ
  | .application l r s, Γ, Δ, ρ, v, F, hh, hlt, hr => by
    simp only [Snode.spine] at hh hlt
    simp only [Snode.unmark] at hr
    cases hr with
    | application hf hn hap =>
      obtain ⟨ls, hv, hs⟩ := Runs.spine hk l hh (by omega) hf
      cases hv
      have hlen := hs.length_eq
      rw [length_args] at hlen
      cases hap with
      | lacking _ _ => exact ⟨_, rfl, hs.concat hn r⟩
      | call hi hargs _ =>
        simp only [Head.arity, hi, Option.map_some, Option.some.injEq] at hk
        simp only [List.length_append, List.length_singleton] at hargs
        omega
      | prim hargs _ =>
        simp only [Head.arity, Option.some.injEq] at hk
        simp only [List.length_append, List.length_singleton] at hargs
        omega
  | .scref i, Γ, Δ, ρ, v, F, hh, hlt, hr => by
    obtain ⟨hv, -⟩ := Runs.head hh hk (by omega) hr
    exact ⟨[], hv, List.Forall₂.nil⟩
  | .builtin b, Γ, Δ, ρ, v, F, hh, hlt, hr => by
    obtain ⟨hv, -⟩ := Runs.head hh hk (by omega) hr
    exact ⟨[], hv, List.Forall₂.nil⟩
  | .lambda _ _, _, _, _, _, _, hh, _, _ => by cases hh
  | .symbol _, _, _, _, _, _, hh, _, _ => by cases hh
  | .letrec _ _, _, _, _, _, _, hh, _, _ => by cases hh
  | .nil, _, _, _, _, _, hh, _, _ => by cases hh
  | .number _, _, _, _, _, _, hh, _, _ => by cases hh
  | .string _, _, _, _, _, _, hh, _, _ => by cases hh

/-- A call with all its arguments: they are suspended, and the function is called. -/
theorem Runs.saturated {h : Head} {l r : Snode} {s : Bool}
    (hs : saturated scs (.application l r s) = some h)
    (hr : Runs P scs Γ (.eval ρ (Snode.application l r s).unmark) Δ v F) :
    ∃ Γ' ls G, SuspendAll ls (Snode.application l r s).args ρ Γ' ∧
      h.arity scs = some ls.length ∧ Runs P scs Γ' (.apply h ls) Δ v G ∧ G ⊆ F := by
  unfold Compiler.saturated at hs
  split at hs
  · rename_i h' hh
    split at hs
    · rename_i hk
      cases hs
      simp only [Snode.spine] at hh hk
      simp only [Snode.unmark] at hr
      cases hr with
      | application hf hn hap =>
        obtain ⟨ls, hv, hsus⟩ := Runs.spine hk l hh (by omega) hf
        cases hv
        refine ⟨_, _, _, hsus.concat hn r, ?_, hap, Set.subset_union_right⟩
        have h1 := hsus.length_eq
        rw [length_args] at h1
        rw [hk, List.length_append, List.length_singleton, h1]
    · cases hs
  · cases hs

/-- An argument that a call asks for is evaluated with it. -/
theorem demands_arg {h : Head} {l r a : Snode} {s : Bool} {x : String} {j : Nat}
    (hs : saturated scs (.application l r s) = some h)
    (hj : ∀ {Γ Δ : Store D} {ls : List Loc} {v : Whnf D} {F : Set Loc},
      h.arity scs = some ls.length → Runs P scs Γ (.apply h ls) Δ v F →
      ∀ m, ls[j]? = some m → m ∈ F)
    (ha : (Snode.application l r s).args[j]? = some a) (hx : Demands P scs a x) :
    Demands P scs (.application l r s) x := by
  intro Γ Δ ρ v F hr m hm
  obtain ⟨Γ', ls, G, hsus, hlen, hap, hsub⟩ := hr.saturated hs
  obtain ⟨n, hn, hsn⟩ := hsus.get ha
  exact hsub ((hap.forces hsn (hj hlen hap n hn)).demands hx hm)

/-- A builtin evaluates its strict arguments. -/
theorem Runs.strict_mem {b : Bif} {args : List Loc} {j : Nat} {l : Loc}
    (hj : j < (builtinInfo b).nstrict) (hl : args[j]? = some l) :
    ∀ {m : Nat} {Γ : Store D} {F : Set Loc} (k : Nat), (builtinInfo b).nstrict - k = m → k ≤ j →
      Runs P scs Γ (.strict b k args) Δ v F → l ∈ F := by
  intro m
  induction m with
  | zero =>
    intro Γ F k hm hkj _
    omega
  | succ m ih =>
    intro Γ F k hm hkj hr
    cases hr with
    | result hk _ _ => omega
    | next hk hl' hf hrest =>
      by_cases hkj' : k = j
      · subst hkj'
        rw [hl] at hl'
        cases hl'
        exact Or.inl hf.mem_force
      · exact Or.inr (ih (k + 1) (by omega) (by omega) hrest)

theorem Runs.prim_mem {b : Bif} {args : List Loc} {j : Nat} {l : Loc}
    (hj : j < (builtinInfo b).nstrict) (hlen : (Head.bif b).arity scs = some args.length)
    (hl : args[j]? = some l) (hr : Runs P scs Γ (.apply (.bif b) args) Δ v F) : l ∈ F := by
  cases hr with
  | prim _ hr => exact hr.strict_mem hj hl 0 rfl (Nat.zero_le j)
  | lacking hk hlt =>
    rw [hlen, Option.some.injEq] at hk
    omega

/-- The node that a builtin gives is evaluated. -/
theorem Runs.strict_selects {b : Bif} {args : List Loc} :
    ∀ {m : Nat} {Γ : Store D} {F : Set Loc} (k : Nat), (builtinInfo b).nstrict - k = m →
      Runs P scs Γ (.strict b k args) Δ v F → ∃ Γ₁ Γ₂ r, Selects P b args Γ₁ Γ₂ r ∧ r ∈ F := by
  intro m
  induction m with
  | zero =>
    intro Γ F k hm hr
    cases hr with
    | result _ hs hf => exact ⟨_, _, _, hs, hf.mem_force⟩
    | next hk _ _ _ => omega
  | succ m ih =>
    intro Γ F k hm hr
    cases hr with
    | result hk _ _ => omega
    | next _ _ _ hrest =>
      obtain ⟨Γ₁, Γ₂, r, hs, hr⟩ := ih (k + 1) (by omega) hrest
      exact ⟨Γ₁, Γ₂, r, hs, Or.inr hr⟩

/-- What both branches of `if` demand. -/
theorem demands_if {l t f : Snode} {s s' : Bool} {x : String}
    (hs : saturated scs (.application (.application l t s) f s') = some (.bif .if_))
    (ht : Demands P scs t x) (hf : Demands P scs f x) :
    Demands P scs (.application (.application l t s) f s') x := by
  intro Γ Δ ρ v F hr m hm
  obtain ⟨Γ', ls, G, hsus, hlen, hap, hsub⟩ := hr.saturated hs
  have hbranch : ∀ {j : Nat} {a : Snode} {n : Loc},
      (Snode.application (.application l t s) f s').args[j]? = some a → Demands P scs a x →
      ls[j]? = some n → n ∈ G → m ∈ F := by
    intro j a n ha hx hn hnG
    obtain ⟨n', hn', hsn⟩ := hsus.get ha
    rw [hn] at hn'
    cases hn'
    exact hsub ((hap.forces hsn hnG).demands hx hm)
  have hlen' : l.args.length = 1 := by
    have h1 := hsus.length_eq
    simp only [Head.arity, builtinInfo, Option.some.injEq] at hlen
    simp only [Snode.args, List.length_append, List.length_singleton] at h1
    omega
  obtain ⟨c, hc⟩ := List.length_eq_one_iff.mp hlen'
  cases hap with
  | lacking hk hlt =>
    rw [hlen, Option.some.injEq] at hk
    omega
  | prim _ hst =>
    obtain ⟨Γ₁, Γ₂, r, hsel, hrG⟩ := hst.strict_selects 0 rfl
    cases hsel with
    | ifTrue _ _ => exact hbranch (j := 1) (by simp [Snode.args, hc]) ht rfl hrG
    | ifFalse _ => exact hbranch (j := 2) (by simp [Snode.args, hc]) hf rfl hrG
    | other h1 _ _ => exact absurd rfl h1

/-! ## Letrecs -/

theorem bind_other : ∀ (xs : List String) (ls : List Loc) (ρ : Locals) {x : String}, x ∉ xs →
    ρ.bind xs ls x = ρ x
  | [], _, _, _, _ => rfl
  | _ :: _, [], _, _, _ => rfl
  | y :: xs, l :: ls, ρ, x, h => by
    rw [List.mem_cons, not_or] at h
    rw [Locals.bind, Function.update_of_ne h.1]
    exact bind_other xs ls ρ h.2

theorem bind_get : ∀ (xs : List String) (ls : List Loc) (ρ : Locals), xs.Nodup →
    ∀ (i : Nat) (x : String), xs[i]? = some x → ls.length = xs.length → ρ.bind xs ls x = ls[i]?
  | [], _, _, _, i, x, hx, _ => by simp at hx
  | y :: xs, [], ρ, _, i, x, _, hlen => by simp at hlen
  | y :: xs, l :: ls, ρ, hnd, i, x, hx, hlen => by
    rw [List.nodup_cons] at hnd
    rw [Locals.bind]
    cases i with
    | zero =>
      simp only [List.getElem?_cons_zero, Option.some.injEq] at hx
      rw [hx, Function.update_self, List.getElem?_cons_zero]
    | succ i =>
      rw [List.getElem?_cons_succ] at hx
      have hne : x ≠ y := by
        rintro rfl
        exact hnd.1 (List.mem_of_getElem? hx)
      rw [Function.update_of_ne hne, List.getElem?_cons_succ]
      exact bind_get xs ls ρ hnd.2 i x hx (by simpa using hlen)

theorem bind_mem {xs : List String} {ls : List Loc} {ρ : Locals} {x : String} {l : Loc}
    (hnd : xs.Nodup) (hlen : ls.length = xs.length) (hx : x ∈ xs)
    (hl : ρ.bind xs ls x = some l) : l ∈ ls := by
  obtain ⟨i, hi⟩ := List.getElem?_of_mem hx
  rw [bind_get xs ls ρ hnd i x hi hlen] at hl
  exact List.mem_of_getElem? hl

/-- The binding of `y` is `v`. -/
def Letrec.binds : Letrec → String → Snode → Prop
  | .done, _, _ => False
  | .bind x v _ next, y, e => (y = x ∧ e = v) ∨ next.binds y e

theorem Letrec.binds.mem_names : ∀ {bs : Letrec} {y : String} {e : Snode}, bs.binds y e →
    y ∈ bs.names
  | .bind x v s next, y, e, h => by
    rcases h with h | h
    · exact h.1 ▸ List.mem_cons_self
    · exact List.mem_cons_of_mem _ h.mem_names

/-- The value of a binding is suspended in the node of its name. -/
theorem suspend_binds : ∀ (bs : Letrec) (ls : List Loc) (Γ : Store D) (ρ ρ' : Locals) {y : String}
    {e : Snode}, bs.names.Nodup → ls.Nodup → ls.length = bs.names.length → bs.binds y e →
    ∃ l, ρ.bind bs.names ls y = some l ∧ Suspends l e.unmark ρ' (Γ.suspend ρ' bs.unmark ls)
  | .done, _, _, _, _, _, _, _, _, _, h => h.elim
  | .bind x v s next, [], _, _, _, _, _, _, _, hlen, _ => by simp [Letrec.names] at hlen
  | .bind x v s next, l :: ls, Γ, ρ, ρ', y, e, hnd, hls, hlen, h => by
    simp only [Letrec.names, List.nodup_cons] at hnd
    rw [List.nodup_cons] at hls
    simp only [Letrec.names, Locals.bind, Letrec.unmark, Store.suspend]
    rcases h with ⟨rfl, rfl⟩ | h
    · exact ⟨l, Function.update_self _ _ _, by rw [Suspends, Function.update_self]⟩
    · obtain ⟨l', hl', hs⟩ := suspend_binds next ls Γ ρ ρ' hnd.2 hls.2
        (by simpa [Letrec.names] using hlen) h
      have hne : y ≠ x := by
        rintro rfl
        exact hnd.1 h.mem_names
      refine ⟨l', by rw [Function.update_of_ne hne, hl'], hs.update ?_⟩
      rintro rfl
      exact hls.1 (bind_mem hnd.2 (by simpa [Letrec.names] using hlen) h.mem_names hl')

theorem Demands.body {b : Snode} {x : String} (h : Demands P scs b x) (bs : Letrec) :
    DemandsIn P scs bs b x := by
  intro Γ Δ ρ ls v F _ _ _ hr
  exact h hr

/-- What the binding of a name that is demanded demands. -/
theorem DemandsIn.binding {bs : Letrec} {b e : Snode} {x y : String} (hnd : bs.names.Nodup)
    (hy : DemandsIn P scs bs b y) (hb : bs.binds y e) (hx : Demands P scs e x) :
    DemandsIn P scs bs b x := by
  intro Γ Δ ρ ls v F hlen hls hfresh hr l hl
  obtain ⟨m, hm, hs⟩ := suspend_binds bs ls Γ ρ (ρ.bind bs.names ls) hnd hls hlen hb
  exact (hr.forces hs (hy hlen hls hfresh hr m hm)).demands hx hl

theorem DemandsIn.letrec {bs : Letrec} {b : Snode} {x : String} (h : DemandsIn P scs bs b x)
    (hx : x ∉ bs.names) : Demands P scs (.letrec bs b) x := by
  intro Γ Δ ρ v F hr l hl
  simp only [Snode.unmark] at hr
  cases hr with
  | letrec hlen hls hfresh hr =>
    rw [unmark_names] at hlen hr
    exact h hlen hls hfresh hr l (by rw [bind_other bs.names _ ρ hx, hl])

/-- Marks play no part in what a letrec demands. -/
theorem DemandsIn.congr {bs bs' : Letrec} {b b' : Snode} {x : String}
    (h : DemandsIn P scs bs b x) (hbs : bs'.unmark = bs.unmark) (hb : b'.unmark = b.unmark) :
    DemandsIn P scs bs' b' x := by
  have hnames : bs'.names = bs.names := by rw [← unmark_names, hbs, unmark_names]
  intro Γ Δ ρ ls v F hlen hls hfresh hr
  rw [hnames] at hlen hr ⊢
  rw [hbs, hb] at hr
  exact h hlen hls hfresh hr

theorem Demands.congr {c c' : Snode} {x : String} (h : Demands P scs c x)
    (hc : c'.unmark = c.unmark) : Demands P scs c' x := by
  intro Γ Δ ρ v F hr
  rw [hc] at hr
  exact h hr

/-! ## Marks and flags -/

/-- The names of the bindings that are marked. -/
def Letrec.marked : Letrec → List String
  | .done => []
  | .bind x _ s next => if s then x :: next.marked else next.marked

mutual

/-- Every letrec in the tree demands its bindings that are marked. -/
def Snode.MarksSound (P : Prims D) (scs : List Scomb) : Snode → Prop
  | .application l r _ => l.MarksSound P scs ∧ r.MarksSound P scs
  | .lambda _ b => b.MarksSound P scs
  | .letrec bs b => (∀ x ∈ bs.marked, DemandsIn P scs bs b x) ∧ bs.MarksSound P scs ∧
      b.MarksSound P scs
  | _ => True

def Letrec.MarksSound (P : Prims D) (scs : List Scomb) : Letrec → Prop
  | .done => True
  | .bind _ v _ next => v.MarksSound P scs ∧ next.MarksSound P scs

end

/-- Every flag in the table `scs'` is right about the program `scs`. -/
def FlagsSound (P : Prims D) (scs scs' : List Scomb) : Prop :=
  ∀ i a, funStrictin scs' (.sc i) a = true → StrictIn P scs i a

end Compiler
end NReduce
