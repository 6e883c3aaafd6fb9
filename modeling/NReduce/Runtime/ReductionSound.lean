import NReduce.Runtime.ReductionSteps
import Mathlib.Data.List.Forall2

/-!
# NReduce.Runtime.ReductionSound

The engine of `reduction.c` is sound: what it does to the graph changes the value of no cell, and
what it stops at is in weak head normal form.

While the strict arguments of a builtin are reduced, the redex it belongs to waits, a `Frame`. The
spine of a waiting redex stays as it is. It could only change if its own root were reduced once more
from below; then the argument that is being reduced is flagged and still an application, which is
what `trace_step` reports as irreducible. The results are about runs without that report.
-/

namespace NReduce
namespace Reduction

open Compiler Domain Heap

/-! ## Waiting redexes -/

/-- A redex whose strict arguments are being reduced -/
structure Frame where
  /-- what `reduce` was called with -/
  redex : Pntr
  root : Pntr
  spine : List (Nat × Pntr)
  tip : Nat
  builtin : Bif

namespace Frame

def strictArgs (f : Frame) : List Pntr := (args f.spine).take (builtinInfo f.builtin).nstrict

structure Ok (f : Frame) (h : Heap) : Prop where
  tip : h.cells f.tip = .builtin f.builtin
  resolves : h.Resolves f.redex f.root
  spine : h.Spine (.cell f.tip) f.spine f.root
  nargs : (builtinInfo f.builtin).nargs ≤ f.spine.length

variable {f : Frame} {h h' : Heap}

theorem Ok.tip_application (hf : f.Ok h) : h.application? (.cell f.tip) = none := by
  simp [application?, hf.tip]

/-- A waiting redex leads to an application. -/
theorem Ok.application (hf : f.Ok h) {a : Pntr} (ha : h.Resolves f.redex a) :
    h.application? a ≠ none := by
  obtain rfl := hf.resolves.unique ha
  have hlen := hf.nargs
  have hpos := nargs_pos f.builtin
  have hs := hf.spine
  generalize f.spine = s at hs hlen
  generalize f.root = r at hs ⊢
  cases hs with
  | tip =>
    rw [List.length_nil] at hlen
    omega
  | app hc _ _ =>
    rw [application?_eq_some.mpr ⟨_, rfl, hc⟩]
    exact Option.some_ne_none _

theorem Ok.keep (hf : f.Ok h) (hind : ∀ c p, h.cells c = .ind p → h'.cells c = .ind p)
    (htip : h'.cells f.tip = .builtin f.builtin)
    (hs : ∀ b ∈ f.spine, h'.cells b.1 = h.cells b.1) : f.Ok h' := by
  have hself : h'.Resolves (.cell f.tip) (.cell f.tip) := .cell fun r => by rw [htip]; simp
  have hspine := hf.spine.keep hind hs hself
  refine ⟨htip, hf.resolves.keep hind ?_, hspine, hf.nargs⟩
  generalize f.spine = s at hspine
  generalize f.root = r at hspine ⊢
  cases hspine with
  | tip => exact hself
  | app hc _ _ => exact .cell fun r => by rw [hc]; simp

end Frame

/-- The waiting redexes, the innermost first: `p` is a strict argument of the first of them, and
each of them is a strict argument of the next. -/
inductive Waiting (h : Heap) : List Frame → Pntr → Prop
  | none (p : Pntr) : Waiting h [] p
  | some {f : Frame} {fs : List Frame} {p : Pntr} (hf : f.Ok h) (hp : p ∈ f.strictArgs)
    (hfs : Waiting h fs f.redex) : Waiting h (f :: fs) p

namespace Waiting

variable {h h' : Heap} {fs : List Frame} {f : Frame} {p : Pntr}

theorem ok (hw : Waiting h fs p) (hf : f ∈ fs) : f.Ok h := by
  induction hw with
  | none => cases hf
  | some hok _ _ ih =>
    obtain rfl | hf := List.mem_cons.mp hf
    · exact hok
    · exact ih hf

/-- One of the strict arguments of a waiting redex is being reduced. -/
theorem argument (hw : Waiting h fs p) (hf : f ∈ fs) :
    ∃ a ∈ f.strictArgs, a = p ∨ ∃ g ∈ fs, a = g.redex := by
  induction hw with
  | none => cases hf
  | @some g gs p hok hp hgs ih =>
    obtain rfl | hf := List.mem_cons.mp hf
    · exact ⟨p, hp, .inl rfl⟩
    · obtain ⟨a, ha, rfl | ⟨g', hg', rfl⟩⟩ := ih hf
      · exact ⟨_, ha, .inr ⟨g, List.mem_cons_self, rfl⟩⟩
      · exact ⟨_, ha, .inr ⟨g', List.mem_cons_of_mem g hg', rfl⟩⟩

theorem keep (hw : Waiting h fs p) (hok : ∀ f ∈ fs, f.Ok h → f.Ok h') : Waiting h' fs p := by
  induction hw with
  | none p => exact .none p
  | @some f fs p hf hp _ ih =>
    exact .some (hok f List.mem_cons_self hf) hp
      (ih fun g hg => hok g (List.mem_cons_of_mem f hg))

end Waiting

/-! ## What a call leaves -/

section

variable {K : Type} (I : Interp K) (scs : List Scomb)

/-- The flagged cells are in weak head normal form, but for those that wait. -/
def Flagged (t : Task) (ps : List Pntr) : Prop :=
  ∀ c, t.reduced c = true → Whnf scs t.toHeap (.cell c) ∨ .cell c ∈ ps

/-- From `h` to `h'`, the spines of the waiting redexes have not changed. -/
structure Leaves (fs : List Frame) (h h' : Heap) : Prop where
  evolves : Evolves I scs h h'
  spines : ∀ f ∈ fs, ∀ b ∈ f.spine, h'.cells b.1 = h.cells b.1

variable {I scs} {h h' h'' : Heap} {fs : List Frame} {f : Frame} {p : Pntr}

theorem Flagged.mono {t : Task} {ps qs : List Pntr} (ht : Flagged scs t ps)
    (hpq : ∀ p ∈ ps, Whnf scs t.toHeap p ∨ p ∈ qs) : Flagged scs t qs := by
  intro c hc
  obtain hc | hc := ht c hc
  · exact .inl hc
  · exact hpq _ hc

theorem Flagged.evolves {t t' : Task} {ps : List Pntr} (ht : Flagged scs t ps)
    (hr : t'.reduced = t.reduced) (he : Evolves I scs t.toHeap t'.toHeap) :
    Flagged scs t' ps := by
  intro c hc
  rw [hr] at hc
  exact (ht c hc).imp (he.whnf _) id

namespace Leaves

theorem refl (hw : h.Wf) : Leaves I scs fs h h := ⟨.refl hw, fun _ _ _ _ => rfl⟩

theorem trans (hl : Leaves I scs fs h h') (hl' : Leaves I scs fs h' h'') : Leaves I scs fs h h'' :=
  ⟨hl.evolves.trans hl'.evolves,
    fun f hf b hb => (hl'.spines f hf b hb).trans (hl.spines f hf b hb)⟩

theorem tail (hl : Leaves I scs (f :: fs) h h') : Leaves I scs fs h h' :=
  ⟨hl.evolves, fun g hg => hl.spines g (List.mem_cons_of_mem f hg)⟩

theorem ok (hl : Leaves I scs fs h h') (hf : f ∈ fs) (hok : f.Ok h) : f.Ok h' :=
  hok.keep hl.evolves.ind (hl.evolves.builtin _ _ hok.tip) (hl.spines f hf)

theorem waiting (hl : Leaves I scs fs h h') (hw : Waiting h fs p) : Waiting h' fs p :=
  hw.keep fun _ hf => hl.ok hf

theorem inside (hl : Leaves I scs fs h h') {s : List Pntr} (hs : ∀ a ∈ s, a.Inside h.ncells) :
    ∀ a ∈ s, a.Inside h'.ncells :=
  fun a ha => (hs a ha).mono hl.evolves.le

end Leaves

end

/-! ## The stack of `reduce` -/

theorem cutTo_append (s s' : List Pntr) : cutTo s.length (s' ++ s) = s := by
  simp [cutTo]

theorem resolveTop_spec {h : Heap} {k n : Nat} {s s' : List Pntr}
    (hrun : resolveTop h k n s = some s') (hn : n ≤ s.length) :
    ∃ as, s' = as ++ s.drop n ∧ List.Forall₂ h.Resolves (s.take n) as := by
  induction n generalizing s s' with
  | zero =>
    cases hrun
    exact ⟨[], by simp, by simp⟩
  | succ n ih =>
    cases s with
    | nil => cases hrun
    | cons p s =>
      simp only [resolveTop, Option.bind_eq_bind, Option.bind_eq_some_iff, Option.pure_def,
        Option.some.injEq] at hrun
      obtain ⟨q, hq, s'', hs, rfl⟩ := hrun
      obtain ⟨as, rfl, has⟩ := ih hs (by simpa using hn)
      exact ⟨q :: as, by simp, by simpa using ⟨resolves_of_resolve hq, has⟩⟩

/-! ## The loop, one turn at a time -/

section

variable {scs : List Scomb} {builtins : Bif → Heap → List Pntr → Option (Pntr × Heap)}

/-- Where the loop of `reduce` stops -/
inductive Stops (scs : List Scomb) (h : Heap) (sp : List (Nat × Pntr)) : Pntr → Prop
  | number (d : Double) (hsp : sp = []) : Stops scs h sp (.number d)
  | data {c : Nat} (hc : (h.cells c).isData = true) (hsp : sp = []) : Stops scs h sp (.cell c)
  | function {c i : Nat} {sc : Scomb} (hc : h.cells c = .scref i) (hsc : scs[i]? = some sc)
    (hlen : sp.length < sc.nargs) : Stops scs h sp (.cell c)

/-- A turn of the loop of `reduce` with `p :: s` on the stack: the spine `sp` from `target` down to
`q` is unwound. -/
inductive Turn (scs : List Scomb) (builtins : Bif → Heap → List Pntr → Option (Pntr × Heap))
    (k : Nat) (t : Task) (st : List Pntr) (q : Pntr) (sp : List (Nat × Pntr)) (t' : Task)
    (st' : List Pntr) : Prop
  | stop (hq : Stops scs t.toHeap sp q) (ht : t' = t) (hst : st' = st)
  | scomb {c i : Nat} {sc : Scomb} {h : Heap} (hq : q = .cell c) (hc : t.cells c = .scref i)
    (hsc : scs[i]? = some sc) (hlen : sc.nargs ≤ sp.length)
    (hstep : reduceScomb k t.toHeap sc (onStack q sp ++ st) = some h)
    (hrun : reduceLoop scs builtins k { t with toHeap := h } st = some (t', st'))
  | builtin {c : Nat} {b : Bif} {t₁ t₂ : Task} {s₁ : List Pntr} (hq : q = .cell c)
    (hc : t.cells c = .builtin b) (hlen : (builtinInfo b).nargs ≤ sp.length)
    (hargs : reduceArgs scs builtins k t ((args sp).take (builtinInfo b).nargs ++
      (onStack q sp ++ st).drop (builtinInfo b).nargs) (List.range (builtinInfo b).nstrict) =
      some (t₁, s₁))
    (hstep : reduceBuiltin builtins k t₁ b s₁ = some t₂)
    (hrun : reduceLoop scs builtins k t₂ (cutTo st.length s₁) = some (t', st'))

theorem turn_of_reduceLoop {k : Nat} {t t' : Task} {st st' : List Pntr}
    (hrun : reduceLoop scs builtins (k + 1) t st = some (t', st')) :
    ∃ p s q sp target, st = p :: s ∧ t.Resolves p target ∧ t.Spine q sp target ∧
      t.application? q = none ∧ Turn scs builtins k t st q sp t' st' := by
  cases st with
  | nil => simp [reduceLoop] at hrun
  | cons p s =>
    simp only [reduceLoop, List.head?_cons, Option.bind_eq_bind, Option.bind_some,
      Option.bind_eq_some_iff] at hrun
    obtain ⟨target, htarget, s', hunwind, hrun⟩ := hrun
    have htarget := resolves_of_resolve htarget
    obtain ⟨q, sp, hs, hq, -, rfl⟩ := unwind_spec htarget.idem hunwind
    refine ⟨p, s, q, sp, target, rfl, htarget, hs, hq, ?_⟩
    have hlen : (onStack q sp ++ p :: s).length - 1 - (p :: s).length = sp.length := by
      rw [List.length_append, length_onStack]
      omega
    have hcut : cutTo (p :: s).length (onStack q sp ++ p :: s) = p :: s := cutTo_append _ _
    obtain ⟨l, hl⟩ : ∃ l, onStack q sp ++ p :: s = q :: l := ⟨_, rfl⟩
    rw [hlen, hcut, hl] at hrun
    cases q with
    | number d =>
      simp only [Option.ite_none_left_eq_some] at hrun
      obtain ⟨hpos, rfl, rfl⟩ := hrun
      exact .stop (.number d (List.length_eq_zero_iff.mp (by omega))) rfl rfl
    | cell c =>
      cases hc : t.cells c with
      | scref i =>
        simp only [hc, Option.bind_eq_some_iff] at hrun
        obtain ⟨sc, hsc, hrun⟩ := hrun
        split at hrun
        · next hlt =>
          cases hrun
          exact .stop (.function hc hsc hlt) rfl rfl
        · next hge =>
          obtain ⟨h, hstep, hrun⟩ := Option.bind_eq_some_iff.mp hrun
          rw [← hl] at hstep
          exact .scomb rfl hc hsc (Nat.le_of_not_lt hge) hstep hrun
      | builtin b =>
        simp only [hc] at hrun
        split at hrun
        · cases hrun
        · next hge =>
          simp only [Option.bind_eq_some_iff, Prod.exists] at hrun
          obtain ⟨as, has, t₁, s₁, hargs, t₂, hstep, hrun⟩ := hrun
          have hge := Nat.le_of_not_lt hge
          rw [← hl] at has hargs
          obtain rfl := spineArgs_spec (fun b hb => hs.mem (List.mem_reverse.mp hb))
            (by rwa [List.length_reverse]) has
          rw [List.map_take] at hargs
          exact .builtin rfl hc hge hargs hstep hrun
      | cons x y | aref x xs y | string x | nil =>
        simp only [hc, Option.ite_none_left_eq_some] at hrun
        obtain ⟨hpos, rfl, rfl⟩ := hrun
        exact .stop (.data (by rw [hc]; rfl) (List.length_eq_zero_iff.mp (by omega))) rfl rfl
      | empty | application f a | ind r | hole =>
        simp only [hc] at hrun
        cases hrun

theorem irreducible_of_reduceBuiltin {k : Nat} {t t' : Task} {b : Bif} {l : List Pntr}
    (hrun : reduceBuiltin builtins k t b l = some t') (ht : t.irreducible = true) :
    t'.irreducible = true := by
  simp only [reduceBuiltin, Option.bind_eq_bind, Option.bind_eq_some_iff, Option.pure_def,
    Option.some.injEq, Prod.exists] at hrun
  obtain ⟨_, _, _, _, _, _, _, _, _, _, _, rfl⟩ := hrun
  simp [ht]

/-- A report is not taken back. -/
theorem irreducible_of_run (k : Nat) :
    (∀ t st t' st', reduce scs builtins k t st = some (t', st') → t.irreducible = true →
      t'.irreducible = true) ∧
    (∀ t st t' st', reduceLoop scs builtins k t st = some (t', st') → t.irreducible = true →
      t'.irreducible = true) ∧
    ∀ t st is t' st', reduceArgs scs builtins k t st is = some (t', st') → t.irreducible = true →
      t'.irreducible = true := by
  induction k with
  | zero =>
    refine ⟨fun _ _ _ _ h => ?_, fun _ _ _ _ h => ?_, fun _ _ _ _ _ h => ?_⟩
    · simp [reduce] at h
    · simp [reduceLoop] at h
    · simp [reduceArgs] at h
  | succ k ih =>
    obtain ⟨ihr, ihl, iha⟩ := ih
    refine ⟨fun t st t' st' hrun ht => ?_, fun t st t' st' hrun ht => ?_,
      fun t st is t' st' hrun ht => ?_⟩
    · cases st with
      | nil => simp [reduce] at hrun
      | cons p s =>
        cases p with
        | number d => exact ihl _ _ _ _ hrun ht
        | cell c =>
          simp only [reduce] at hrun
          split at hrun
          · cases hrun
            exact ht
          · exact ihl _ _ _ _ hrun ht
    · obtain ⟨_, _, _, _, _, -, -, -, -, hturn⟩ := turn_of_reduceLoop hrun
      cases hturn with
      | stop hq ht' hst => rwa [ht']
      | scomb hq hc hsc hlen hstep hrun => exact ihl _ _ _ _ hrun ht
      | builtin hq hc hlen hargs hstep hrun =>
        exact ihl _ _ _ _ hrun (irreducible_of_reduceBuiltin hstep (iha _ _ _ _ _ hargs ht))
    · cases is with
      | nil =>
        cases hrun
        exact ht
      | cons i is =>
        simp only [reduceArgs, Option.bind_eq_bind, Option.bind_eq_some_iff, Prod.exists] at hrun
        obtain ⟨p, -, t₁, s₁, hred, hrun⟩ := hrun
        exact iha _ _ _ _ _ hrun (ihr _ _ _ _ hred ht)

end

/-! ## One redex -/

section

variable {K : Type} {I : Interp K} {scs : List Scomb} {h h' : Heap}

theorem Whnf.resolves {p q : Pntr} (hp : Whnf scs h p) (hq : h.Resolves p q) : Whnf scs h q := by
  have hqq := hq.idem
  cases hp with
  | number hd =>
    obtain rfl := hq.unique hd
    exact .number hqq
  | data hd hc =>
    obtain rfl := hq.unique hd
    exact .data hqq hc
  | function hd hs ht hsc hlen =>
    obtain rfl := hq.unique hd
    exact .function hqq hs ht hsc hlen

theorem Stops.whnf {p q target : Pntr} {sp : List (Nat × Pntr)} (hq : Stops scs h sp q)
    (hp : h.Resolves p target) (hs : h.Spine q sp target) : Whnf scs h p := by
  cases hq with
  | number d hsp =>
    subst hsp
    cases hs
    exact .number hp
  | data hc hsp =>
    subst hsp
    cases hs
    exact .data hp hc
  | function hc hsc hlen => exact .function hp hs hc hsc hlen

theorem inside_args {q p : Pntr} {s : List (Nat × Pntr)} (hw : h.Wf) (hs : h.Spine q s p) :
    ∀ a ∈ args s, a.Inside h.ncells := by
  intro a ha
  obtain ⟨b, hb, rfl⟩ := List.mem_map.mp ha
  obtain ⟨f, hf⟩ := hs.mem (List.mem_reverse.mp hb)
  have hin := hw.inside b.1
  rw [hf] at hin
  exact hin.2

theorem inside_onStack {c : Nat} {p : Pntr} {s : List (Nat × Pntr)} {st : List Pntr} (hw : h.Wf)
    (hs : h.Spine (.cell c) s p) (hc : h.cells c ≠ .empty) (hst : ∀ a ∈ st, a.Inside h.ncells) :
    ∀ a ∈ onStack (.cell c) s ++ st, a.Inside h.ncells := by
  intro a ha
  obtain ha | ha := List.mem_append.mp ha
  · obtain rfl | ha := List.mem_cons.mp ha
    · exact hw.lt hc
    · obtain ⟨b, hb, rfl⟩ := List.mem_map.mp ha
      obtain ⟨f, hf⟩ := hs.mem (List.mem_reverse.mp hb)
      exact hw.lt (by simp [hf])
  · exact hst a ha

/-- A waiting redex with the root of a redex on its spine has the same tip and the same arguments
next to it. -/
theorem Redex.shared {c d : Nat} {s : List (Nat × Pntr)} {f : Frame} (hr : Redex scs h c s d)
    (hf : f.Ok h) (hd : d ∈ f.spine.map Prod.fst) : c = f.tip ∧ ∃ s₁, f.spine = s₁ ++ s := by
  have htip := hr.tip_application
  have hr := hr.spine
  cases hr with
  | tip =>
    obtain ⟨b, hb, rfl⟩ := List.mem_map.mp hd
    obtain ⟨g, hg⟩ := hf.spine.mem hb
    rw [application?_eq_some.mpr ⟨_, rfl, hg⟩] at htip
    cases htip
  | app hc hp hs =>
    obtain ⟨heq, s₁, hs₁⟩ := Spine.shared (.app hc hp hs) hf.spine htip hf.tip_application hd
    cases heq
    exact ⟨rfl, s₁, hs₁⟩

/-- A step at a root that is on no spine of a waiting redex -/
theorem leaves_of_step {d : Nat} {fs : List Frame} (he : Evolves I scs h h')
    (hkept : ∀ c, c ≠ d → (h.cells c).isRedex = true → h'.cells c = h.cells c)
    (hok : ∀ f ∈ fs, f.Ok h) (hd : ∀ f ∈ fs, d ∉ f.spine.map Prod.fst) : Leaves I scs fs h h' := by
  refine ⟨he, fun f hf b hb => ?_⟩
  obtain ⟨g, hg⟩ := (hok f hf).spine.mem hb
  refine hkept b.1 ?_ (isRedex_of_application hg)
  rintro rfl
  exact hd f hf (List.mem_map.mpr ⟨b, hb, rfl⟩)

/-- The step of a supercombinator -/
theorem reduceScomb_leaves {k c i : Nat} {sc : Scomb} {target : Pntr} {sp : List (Nat × Pntr)}
    {st : List Pntr} {fs : List Frame} (hempty : I.string "" = I.nil) (hw : h.Wf)
    (hsc : scs[i]? = some sc)
    (hnd : ∀ l ∈ sc.body.letrecs, l.1.names.Nodup) (hc : h.cells c = .scref i)
    (hs : h.Spine (.cell c) sp target) (hlen : sc.nargs ≤ sp.length)
    (hst : ∀ a ∈ st, a.Inside h.ncells) (hok : ∀ f ∈ fs, f.Ok h)
    (hrun : reduceScomb k h sc (onStack (.cell c) sp ++ st) = some h') :
    Leaves I scs fs h h' := by
  obtain ⟨-, s₂, r, -, hlen₂, hs₂, hargs, hroot⟩ := hs.redex hlen st
  simp only [reduceScomb, hroot, Option.bind_eq_bind, Option.bind_some,
    Option.bind_eq_some_iff] at hrun
  obtain ⟨dest, hdest, as, has, hrun⟩ := hrun
  obtain rfl := spineArgs_spec (fun b hb => hs.mem (List.mem_reverse.mp hb))
    (by rwa [List.length_reverse]) has
  split at hrun
  swap
  · cases hrun
  obtain ⟨⟨res, h₁⟩, hinst, hind⟩ := Option.bind_eq_some_iff.mp hrun
  rw [List.map_take, show List.map Prod.snd sp.reverse = args sp from rfl, ← hargs] at hinst
  -- the root of the redex
  obtain ⟨d, rfl⟩ : ∃ d, r = .cell d := by
    cases hs₂ with
    | tip => exact ⟨c, rfl⟩
    | app => exact ⟨_, rfl⟩
  have hredex : Redex scs h c s₂ d := ⟨hs₂, .inr ⟨i, sc, hc, hsc, hlen₂⟩⟩
  have hself : h.Resolves (.cell d) (.cell d) := .cell fun p hp => by
    have := hredex.isRedex
    rw [hp] at this
    cases this
  obtain rfl := hself.unique (resolves_of_resolve hdest)
  cases hind
  have hbuilds := (instantiateScomb_builds (I := I) hempty hw hsc hnd (by rw [args_length, hlen₂])
    (fun a ha => by
      obtain ha | ha := List.mem_append.mp ha
      · exact inside_args hw hs₂ a ha
      · exact inside_onStack hw hs (by simp [hc]) hst a (List.mem_of_mem_drop ha)) hinst)
  obtain ⟨he, hkept⟩ := hredex.evolves hw hbuilds.2
    (fun c' hc' => ⟨c', .cell fun p hp => by
        rw [hbuilds.1.cells c' (hw.lt fun he => by simp [he, Cell.isData] at hc')] at hp
        simp [hp, Cell.isData] at hc', by
      rwa [hbuilds.1.cells c' (hw.lt fun he => by simp [he, Cell.isData] at hc')]⟩)
    (fun σ _ => by rw [hc]; rfl)
  refine leaves_of_step he hkept hok fun f hf hd => ?_
  obtain ⟨rfl, -⟩ := hredex.shared (hok f hf) hd
  have htip := (hok f hf).tip
  rw [hc] at htip
  cases htip

end

/-! ## The step of a builtin -/

section

variable {K : Type} {I : Interp K} {scs : List Scomb}
  {builtins : Bif → Heap → List Pntr → Option (Pntr × Heap)}

theorem exists_of_forall₂ {α β : Type} {R : α → β → Prop} {l : List α} {l' : List β}
    (hl : List.Forall₂ R l l') :
    (∀ a ∈ l, ∃ b ∈ l', R a b) ∧ ∀ b ∈ l', ∃ a ∈ l, R a b := by
  induction hl with
  | nil => exact ⟨fun _ h => (List.not_mem_nil h).elim, fun _ h => (List.not_mem_nil h).elim⟩
  | @cons a b l l' hab _ ih =>
    refine ⟨fun x hx => ?_, fun y hy => ?_⟩
    · obtain rfl | hx := List.mem_cons.mp hx
      · exact ⟨b, List.mem_cons_self, hab⟩
      · obtain ⟨y, hy, hxy⟩ := ih.1 x hx
        exact ⟨y, List.mem_cons_of_mem b hy, hxy⟩
    · obtain rfl | hy := List.mem_cons.mp hy
      · exact ⟨a, List.mem_cons_self, hab⟩
      · obtain ⟨x, hx, hxy⟩ := ih.2 y hy
        exact ⟨x, List.mem_cons_of_mem a hx, hxy⟩

theorem map_value_of_forall₂ {h : Heap} {σ : Values K} {as bs : List Pntr}
    (hσ : ∀ c p, h.cells c = .ind p → σ c = p.value I σ) (hab : List.Forall₂ h.Resolves as bs) :
    as.map (·.value I σ) = bs.map (·.value I σ) := by
  induction hab with
  | nil => rfl
  | cons hab _ ih => rw [List.map_cons, List.map_cons, hab.value I hσ, ih]

/-- What the builtin of a waiting redex is given, and the root of that redex: `as` stands for its
strict arguments. -/
theorem reduceBuiltin_inv {k : Nat} {t t' : Task} {b : Bif} {l : List Pntr}
    (hlen : (builtinInfo b).nargs ≤ l.length) (hrun : reduceBuiltin builtins k t b l = some t') :
    ∃ as res h res' d h', List.Forall₂ t.Resolves (l.take (builtinInfo b).nstrict) as ∧
      builtins b t.toHeap (as ++ (l.take (builtinInfo b).nargs).drop (builtinInfo b).nstrict) =
        some (res, h) ∧ h.Resolves res res' ∧ l[(builtinInfo b).nargs]? = some d ∧
      h.makeInd d res' = some h' ∧
      t' = { t with toHeap := h', irreducible :=
        t.irreducible || as.any (fun p => (t.application? p).isSome) } := by
  have hstrict := nstrict_le_nargs b
  simp only [reduceBuiltin, Option.bind_eq_bind, Option.bind_eq_some_iff, Option.pure_def,
    Option.some.injEq, Prod.exists] at hrun
  obtain ⟨st, hst, res, h, hbuiltin, res', hres, d, hd, h', hind, rfl⟩ := hrun
  obtain ⟨as, rfl, has⟩ := resolveTop_spec hst (by omega)
  have hlas : as.length = (builtinInfo b).nstrict := by
    rw [← has.length_eq, List.length_take]
    omega
  refine ⟨as, res, h, res', d, h', has, ?_, resolves_of_resolve hres, ?_, hind, ?_⟩
  · have hall : as.take (builtinInfo b).nargs = as := List.take_of_length_le (by omega)
    rw [← hbuiltin, List.take_append, hall, hlas, List.drop_take]
  · rw [← hd, List.getElem?_append_right (by omega), List.getElem?_drop, hlas]
    congr 1
    omega
  · rw [List.take_left' hlas]

/-- The step of a builtin whose strict arguments have been reduced -/
theorem reduceBuiltin_leaves {k : Nat} {t t' : Task} {g : Frame} {fs : List Frame}
    {st : List Pntr} (hright : RightBuiltins I scs builtins) (hw : t.Wf)
    (hwait : Waiting t.toHeap fs g.redex) (hg : g.Ok t.toHeap)
    (hstrict : ∀ a ∈ g.strictArgs, Whnf scs t.toHeap a ∨ a ∈ (g :: fs).map Frame.redex)
    (hrun : reduceBuiltin builtins k t g.builtin
      ((args g.spine).take (builtinInfo g.builtin).nargs ++
        (onStack (.cell g.tip) g.spine ++ st).drop (builtinInfo g.builtin).nargs) = some t')
    (hirr : t'.irreducible = false) :
    t'.reduced = t.reduced ∧ Leaves I scs fs t.toHeap t'.toHeap := by
  have hle := nstrict_le_nargs g.builtin
  obtain ⟨s₁, s₂, r, hsplit, hlen₂, hs₂, hargs, hroot⟩ := hg.spine.redex hg.nargs st
  have hlargs : (args s₂).length = (builtinInfo g.builtin).nargs := by rw [args_length, hlen₂]
  rw [← hargs] at hrun
  obtain ⟨as, res, h, res', dest, h', has, hbuiltin, hres, hdest, hind, rfl⟩ :=
    reduceBuiltin_inv (by rw [List.length_append]; omega) hrun
  rw [List.take_append_of_le_length (by omega)] at has
  rw [List.take_left' hlargs] at hbuiltin
  rw [List.getElem?_append_right (by omega), List.getElem?_drop, hlargs, Nat.sub_self,
    Nat.add_zero, hroot] at hdest
  cases hdest
  simp only [Bool.or_eq_false_iff, List.any_eq_false, Option.not_isSome_iff_eq_none] at hirr
  have hsargs : g.strictArgs = (args s₂).take (builtinInfo g.builtin).nstrict := by
    rw [Frame.strictArgs, hargs, List.take_take, Nat.min_eq_left hle]
  rw [← hsargs] at has
  obtain ⟨hleft, hright'⟩ := exists_of_forall₂ has
  -- a strict argument leads to no application, so it is no waiting redex
  have hnot : ∀ a ∈ g.strictArgs, ∀ f ∈ g :: fs, a ≠ f.redex := by
    rintro a ha f hf rfl
    obtain ⟨b, hb, hab⟩ := hleft _ ha
    have hfok : f.Ok t.toHeap := by
      obtain rfl | hf := List.mem_cons.mp hf
      · exact hg
      · exact hwait.ok hf
    exact hfok.application hab (hirr.2 b hb)
  have hwhnf : ∀ a ∈ g.strictArgs, Whnf scs t.toHeap a := by
    intro a ha
    obtain hw | hm := hstrict a ha
    · exact hw
    · obtain ⟨f, hf, rfl⟩ := List.mem_map.mp hm
      exact absurd rfl (hnot _ ha f hf)
  -- the root of the redex
  obtain ⟨d, rfl⟩ : ∃ d, r = .cell d := by
    cases hs₂ with
    | tip => exact ⟨g.tip, rfl⟩
    | app => exact ⟨_, rfl⟩
  have hredex : Redex scs t.toHeap g.tip s₂ d := ⟨hs₂, .inl ⟨g.builtin, hg.tip, hlen₂⟩⟩
  cases hind
  have hin : ∀ a ∈ args s₂, a.Inside t.ncells := inside_args hw hs₂
  obtain ⟨hbuilds, hdata⟩ := hright g.builtin t.toHeap _ res h hw
    (fun a ha => by
      obtain ha | ha := List.mem_append.mp ha
      · obtain ⟨b, hb, hab⟩ := hright' a ha
        rw [hsargs] at hb
        exact hab.inside hw (hin b (List.mem_of_mem_take hb))
      · exact hin a (List.mem_of_mem_drop ha))
    (by
      rw [List.length_append, ← has.length_eq, hsargs, List.length_take, List.length_drop]
      omega)
    (fun a ha => by
      rw [List.take_left' (by rw [← has.length_eq, hsargs, List.length_take]; omega)] at ha
      obtain ⟨b, hb, hab⟩ := hright' a ha
      exact ⟨hab.idem, hirr.2 a ha, (hwhnf b hb).resolves hab⟩)
    hbuiltin
  obtain ⟨he, hkept⟩ := hredex.evolves hw (hbuilds.resolve hw hres) hdata (fun σ hσ => by
    rw [hg.tip, List.map_append, ← map_value_of_forall₂ hσ has, hsargs, ← List.map_append,
      List.take_append_drop]
    rfl)
  refine ⟨rfl, leaves_of_step he hkept (fun f hf => hwait.ok hf) fun f hf hd => ?_⟩
  -- a waiting redex with this root waits for the reduction of one of these arguments
  have hf' := hwait.ok hf
  obtain ⟨htip, s₃, hs₃⟩ := hredex.shared hf' hd
  have hsame : f.builtin = g.builtin := by
    have htip' := hf'.tip
    rw [← htip, hg.tip, Cell.builtin.injEq] at htip'
    exact htip'.symm
  have hsargs' : f.strictArgs = g.strictArgs := by
    rw [hsargs, Frame.strictArgs, hsame, hs₃, args, List.reverse_append, List.map_append]
    exact List.take_append_of_le_length (by rw [List.length_map, List.length_reverse]; omega)
  obtain ⟨a, ha, hap⟩ := hwait.argument hf
  rw [hsargs'] at ha
  obtain rfl | ⟨f', hf', rfl⟩ := hap
  · exact hnot _ ha g List.mem_cons_self rfl
  · exact hnot _ ha f' (List.mem_cons_of_mem g hf') rfl

end

/-! ## Every run -/

section

variable {K : Type} (I : Interp K) (scs : List Scomb)
  (builtins : Bif → Heap → List Pntr → Option (Pntr × Heap))

/-- The three functions of the engine with the bound `k` -/
structure Sound (k : Nat) : Prop where
  atReduce : ∀ {t t' : Task} {fs : List Frame} {p : Pntr} {s s' : List Pntr},
    reduce scs builtins k t (p :: s) = some (t', s') → t'.irreducible = false → t.Wf →
    (∀ a ∈ p :: s, a.Inside t.ncells) → Waiting t.toHeap fs p →
    Flagged scs t (fs.map Frame.redex) →
    s' = p :: s ∧ Leaves I scs fs t.toHeap t'.toHeap ∧ Flagged scs t' (fs.map Frame.redex) ∧
      (Whnf scs t'.toHeap p ∨ p ∈ fs.map Frame.redex)
  atLoop : ∀ {t t' : Task} {fs : List Frame} {p : Pntr} {s s' : List Pntr},
    reduceLoop scs builtins k t (p :: s) = some (t', s') → t'.irreducible = false → t.Wf →
    (∀ a ∈ p :: s, a.Inside t.ncells) → Waiting t.toHeap fs p →
    Flagged scs t (p :: fs.map Frame.redex) →
    s' = p :: s ∧ Leaves I scs fs t.toHeap t'.toHeap ∧ Flagged scs t' (fs.map Frame.redex) ∧
      Whnf scs t'.toHeap p
  atArgs : ∀ {t t' : Task} {g : Frame} {fs : List Frame} {st s' : List Pntr} {is : List Nat},
    reduceArgs scs builtins k t st is = some (t', s') → t'.irreducible = false → t.Wf →
    (∀ a ∈ st, a.Inside t.ncells) → Waiting t.toHeap fs g.redex → g.Ok t.toHeap →
    (∀ i ∈ is, ∀ p, st[i]? = some p → p ∈ g.strictArgs) →
    Flagged scs t ((g :: fs).map Frame.redex) →
    s' = st ∧ Leaves I scs (g :: fs) t.toHeap t'.toHeap ∧
      Flagged scs t' ((g :: fs).map Frame.redex) ∧
      ∀ i ∈ is, ∀ p, st[i]? = some p →
        Whnf scs t'.toHeap p ∨ p ∈ (g :: fs).map Frame.redex

variable {I scs builtins} {k : Nat}

theorem Sound.args_succ (hk : Sound I scs builtins k) {t t' : Task} {g : Frame}
    {fs : List Frame} {st s' : List Pntr} {is : List Nat}
    (hrun : reduceArgs scs builtins (k + 1) t st is = some (t', s'))
    (hirr : t'.irreducible = false) (hw : t.Wf) (hst : ∀ a ∈ st, a.Inside t.ncells)
    (hwait : Waiting t.toHeap fs g.redex) (hg : g.Ok t.toHeap)
    (his : ∀ i ∈ is, ∀ p, st[i]? = some p → p ∈ g.strictArgs)
    (hfl : Flagged scs t ((g :: fs).map Frame.redex)) :
    s' = st ∧ Leaves I scs (g :: fs) t.toHeap t'.toHeap ∧
      Flagged scs t' ((g :: fs).map Frame.redex) ∧
      ∀ i ∈ is, ∀ p, st[i]? = some p →
        Whnf scs t'.toHeap p ∨ p ∈ (g :: fs).map Frame.redex := by
  cases is with
  | nil =>
    cases hrun
    exact ⟨rfl, .refl hw, hfl, fun i hi => (List.not_mem_nil hi).elim⟩
  | cons i is =>
    simp only [reduceArgs, Option.bind_eq_bind, Option.bind_eq_some_iff,
      Prod.exists] at hrun
    obtain ⟨p, hp, t₁, s₁, hred, hrun⟩ := hrun
    have hirr₁ : t₁.irreducible = false := by
      rw [Bool.eq_false_iff]
      intro ht₁
      rw [(irreducible_of_run k).2.2 _ _ _ _ _ hrun ht₁] at hirr
      cases hirr
    have hpin : p ∈ g.strictArgs := his i List.mem_cons_self p hp
    obtain ⟨rfl, hl₁, hfl₁, hp₁⟩ := hk.atReduce hred hirr₁ hw
      (List.forall_mem_cons.mpr ⟨hst p (List.mem_of_getElem? hp), hst⟩) (.some hg hpin hwait) hfl
    obtain ⟨rfl, hl₂, hfl₂, hps⟩ := hk.atArgs hrun hirr hl₁.evolves.wf (hl₁.inside hst)
      (hl₁.tail.waiting hwait) (hl₁.ok List.mem_cons_self hg)
      (fun j hj => his j (List.mem_cons_of_mem i hj)) hfl₁
    refine ⟨rfl, hl₁.trans hl₂, hfl₂, fun j hj q hq => ?_⟩
    obtain rfl | hj := List.mem_cons.mp hj
    · rw [hp] at hq
      cases hq
      exact hp₁.imp (hl₂.evolves.whnf _) id
    · exact hps j hj q hq

theorem Sound.loop_succ (hk : Sound I scs builtins k) (hempty : I.string "" = I.nil)
    (hright : RightBuiltins I scs builtins)
    (hnd : ∀ sc ∈ scs, ∀ l ∈ sc.body.letrecs, l.1.names.Nodup) {t t' : Task} {fs : List Frame}
    {p : Pntr} {s s' : List Pntr}
    (hrun : reduceLoop scs builtins (k + 1) t (p :: s) = some (t', s'))
    (hirr : t'.irreducible = false) (hw : t.Wf) (hs : ∀ a ∈ p :: s, a.Inside t.ncells)
    (hwait : Waiting t.toHeap fs p) (hfl : Flagged scs t (p :: fs.map Frame.redex)) :
    s' = p :: s ∧ Leaves I scs fs t.toHeap t'.toHeap ∧ Flagged scs t' (fs.map Frame.redex) ∧
      Whnf scs t'.toHeap p := by
  obtain ⟨p', st, q, sp, target, heq, htarget, hspine, hq, hturn⟩ := turn_of_reduceLoop hrun
  cases heq
  -- the rest of the run, after a step that leaves the waiting redexes
  have hrest : ∀ {t₁ : Task}, Leaves I scs fs t.toHeap t₁.toHeap →
      Flagged scs t₁ (p :: fs.map Frame.redex) →
      reduceLoop scs builtins k t₁ (p :: s) = some (t', s') →
      s' = p :: s ∧ Leaves I scs fs t.toHeap t'.toHeap ∧ Flagged scs t' (fs.map Frame.redex) ∧
        Whnf scs t'.toHeap p := by
    intro t₁ hl₁ hfl₁ hrun₁
    obtain ⟨hs', hl₂, hfl₂, hp⟩ := hk.atLoop hrun₁ hirr hl₁.evolves.wf (hl₁.inside hs)
      (hl₁.waiting hwait) hfl₁
    exact ⟨hs', hl₁.trans hl₂, hfl₂, hp⟩
  cases hturn with
  | stop hstop ht hst =>
    subst ht hst
    have hp := hstop.whnf htarget hspine
    refine ⟨rfl, .refl hw, hfl.mono fun r hr => ?_, hp⟩
    obtain rfl | hr := List.mem_cons.mp hr
    · exact .inl hp
    · exact .inr hr
  | @scomb c i sc h hqc hc hsc hlen hstep hrun₁ =>
    subst hqc
    have hl : Leaves I scs fs t.toHeap h :=
      reduceScomb_leaves hempty hw hsc (hnd sc (List.mem_of_getElem? hsc)) hc hspine hlen hs
        (fun f hf => hwait.ok hf) hstep
    have hl' : Leaves I scs fs t.toHeap ({ t with toHeap := h } : Task).toHeap := hl
    exact hrest hl' (hfl.evolves rfl hl.evolves) hrun₁
  | @builtin c b t₁ t₂ s₁ hqc hc hlen hargs hstep hrun₁ =>
    subst hqc
    let g : Frame := ⟨p, target, sp, c, b⟩
    have hg : g.Ok t.toHeap := ⟨hc, htarget, hspine, hlen⟩
    have hirr₂ : t₂.irreducible = false := by
      rw [Bool.eq_false_iff]
      intro ht₂
      rw [(irreducible_of_run k).2.1 _ _ _ _ hrun₁ ht₂] at hirr
      cases hirr
    have hirr₁ : t₁.irreducible = false := by
      rw [Bool.eq_false_iff]
      intro ht₁
      rw [irreducible_of_reduceBuiltin hstep ht₁] at hirr₂
      cases hirr₂
    have hle := nstrict_le_nargs b
    have hin : ∀ a ∈ (args sp).take (builtinInfo b).nargs ++
        (onStack (.cell c) sp ++ p :: s).drop (builtinInfo b).nargs, a.Inside t.ncells := by
      intro a ha
      obtain ha | ha := List.mem_append.mp ha
      · exact inside_args hw hspine a (List.mem_of_mem_take ha)
      · exact inside_onStack hw hspine (by simp [hc]) hs a (List.mem_of_mem_drop ha)
    -- the first entries of the stack are the strict arguments
    have hnth : ∀ i < (builtinInfo b).nstrict, ((args sp).take (builtinInfo b).nargs ++
        (onStack (.cell c) sp ++ p :: s).drop (builtinInfo b).nargs)[i]? = g.strictArgs[i]? := by
      intro i hi
      have hsp : (args sp).length = sp.length := args_length sp
      rw [List.getElem?_append_left (by rw [List.length_take]; omega),
        List.getElem?_take_of_lt (by omega), Frame.strictArgs, List.getElem?_take_of_lt hi]
    obtain ⟨rfl, hl₁, hfl₁, hstrict⟩ := hk.atArgs hargs hirr₁ hw hin hwait hg
      (fun i hi a ha => by
        rw [hnth i (List.mem_range.mp hi)] at ha
        exact List.mem_of_getElem? ha) hfl
    obtain ⟨hr₂, hl₂⟩ := reduceBuiltin_leaves (g := g) hright hl₁.evolves.wf
      (hl₁.tail.waiting hwait) (hl₁.ok List.mem_cons_self hg)
      (fun a ha => by
        obtain ⟨i, hi, rfl⟩ := List.mem_iff_getElem.mp ha
        have hin : i < (builtinInfo b).nstrict :=
          Nat.lt_of_lt_of_le hi (List.length_take_le _ _)
        exact hstrict i (List.mem_range.mpr hin) _
          ((hnth i hin).trans (List.getElem?_eq_getElem hi)))
      hstep hirr₂
    refine hrest (hl₁.tail.trans hl₂) (hfl₁.evolves hr₂ hl₂.evolves) ?_
    have hdrop : ((args sp).take (builtinInfo b).nargs ++
        (onStack (.cell c) sp ++ p :: s).drop (builtinInfo b).nargs) =
        ((args sp).take (builtinInfo b).nargs ++
          (onStack (.cell c) sp).drop (builtinInfo b).nargs) ++ p :: s := by
      rw [List.drop_append_of_le_length (by rw [length_onStack]; omega), List.append_assoc]
    rwa [hdrop, cutTo_append] at hrun₁

theorem sound (hempty : I.string "" = I.nil) (hright : RightBuiltins I scs builtins)
    (hnd : ∀ sc ∈ scs, ∀ l ∈ sc.body.letrecs, l.1.names.Nodup) (k : Nat) :
    Sound I scs builtins k := by
  induction k with
  | zero =>
    refine ⟨fun h => ?_, fun h => ?_, fun h => ?_⟩
    · simp [reduce] at h
    · simp [reduceLoop] at h
    · simp [reduceArgs] at h
  | succ k ih =>
    refine ⟨fun {t t' fs p s s'} hrun hirr hw hs hwait hfl => ?_, ih.loop_succ hempty hright hnd,
      ih.args_succ⟩
    cases p with
    | number d =>
      obtain ⟨hs', hl, hfl', hp⟩ := ih.atLoop hrun hirr hw hs hwait
        (hfl.mono fun r hr => .inr (List.mem_cons_of_mem _ hr))
      exact ⟨hs', hl, hfl', .inl hp⟩
    | cell c =>
      simp only [reduce] at hrun
      split at hrun
      · next hc =>
        cases hrun
        exact ⟨rfl, .refl hw, hfl, hfl c hc⟩
      · next hc =>
        have hfl₁ : Flagged scs { t with reduced := Function.update t.reduced c true }
            (.cell c :: fs.map Frame.redex) := by
          intro a ha
          by_cases hac : a = c
          · exact .inr (by rw [hac]; exact List.mem_cons_self)
          · simp only [Function.update_of_ne hac] at ha
            exact (hfl a ha).imp id (List.mem_cons_of_mem _)
        obtain ⟨hs', hl, hfl', hp⟩ := ih.atLoop hrun hirr hw hs hwait hfl₁
        exact ⟨hs', hl, hfl', .inl hp⟩

end

end Reduction
end NReduce
