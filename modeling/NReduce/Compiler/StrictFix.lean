import NReduce.Compiler.Strictness
import Mathlib.Algebra.GroupWithZero.Nat

/-!
# NReduce.Compiler.StrictFix

The strictness analyser only adds marks, notes every mark that it adds, and ends: when an iteration
adds none, the next one would not either.

* `Grows`: what a part of the analyser does to the marks of a tree.
* `checkStrictnessR_some`: the height of a tree is enough for its recursion.
* `strictnessLoop_ends`: the iterations end, with a table that one more leaves as it is.
-/

namespace NReduce
namespace Compiler

open Logic

/-! ## Marks that are missing -/

mutual

/-- The number of applications and bindings without a mark. -/
def Snode.unset : Snode → Nat
  | .application l r s => l.unset + r.unset + if s then 0 else 1
  | .lambda _ b => b.unset
  | .letrec bs b => bs.unset + b.unset
  | _ => 0

def Letrec.unset : Letrec → Nat
  | .done => 0
  | .bind _ v s next => v.unset + next.unset + if s then 0 else 1

end

attribute [local simp] Snode.unset Letrec.unset Snode.unmark Letrec.unmark

/-- From `c` to `c'` marks are added, and the flag `ch'` tells whether there are new ones, or was
set before. -/
structure Grows {α : Type} (erase : α → α) (missing : α → Nat) (c c' : α) (ch ch' : Bool) :
    Prop where
  unmark : erase c' = erase c
  unset : missing c' ≤ missing c
  changed : ch' = true → ch = true ∨ missing c' < missing c
  same : ch' = false → ch = false ∧ c' = c

abbrev Snode.Grows (c c' : Snode) (ch ch' : Bool) : Prop :=
  Compiler.Grows Snode.unmark Snode.unset c c' ch ch'

abbrev Letrec.Grows (bs bs' : Letrec) (ch ch' : Bool) : Prop :=
  Compiler.Grows Letrec.unmark Letrec.unset bs bs' ch ch'

section

variable {α β : Type} {erase : α → α} {missing : α → Nat} {c c' c'' : α} {ch ch' ch'' : Bool}

theorem Grows.refl (c : α) (ch : Bool) : Grows erase missing c c ch ch :=
  ⟨rfl, le_rfl, fun h => Or.inl h, fun h => ⟨h, rfl⟩⟩

theorem Grows.trans (h : Grows erase missing c c' ch ch')
    (h' : Grows erase missing c' c'' ch' ch'') : Grows erase missing c c'' ch ch'' := by
  refine ⟨h'.unmark.trans h.unmark, h'.unset.trans h.unset, fun hc => ?_, fun hc => ?_⟩
  · rcases h'.changed hc with h1 | h1
    · exact (h.changed h1).imp id (fun h2 => lt_of_le_of_lt h'.unset h2)
    · exact Or.inr (lt_of_lt_of_le h1 h.unset)
  · obtain ⟨h1, h2⟩ := h'.same hc
    obtain ⟨h3, h4⟩ := h.same h1
    exact ⟨h3, h2.trans h4⟩

/-- What happens in a part of a tree. -/
theorem Grows.part {erase' : β → β} {missing' : β → Nat} (h : Grows erase missing c c' ch ch')
    (f : α → β) (k : Nat) (he : erase c' = erase c → erase' (f c') = erase' (f c))
    (hf : ∀ c, missing' (f c) = missing c + k) : Grows erase' missing' (f c) (f c') ch ch' := by
  refine ⟨he h.unmark, ?_, fun hc => ?_, fun hc => ⟨(h.same hc).1, by rw [(h.same hc).2]⟩⟩
  · rw [hf, hf]
    exact Nat.add_le_add_right h.unset k
  · rw [hf, hf]
    exact (h.changed hc).imp id (fun hlt => Nat.add_lt_add_right hlt k)

end

section

variable {ch ch' : Bool}

theorem Grows.left {l l' : Snode} (h : l.Grows l' ch ch') (r : Snode) (s : Bool) :
    (Snode.application l r s).Grows (.application l' r s) ch ch' :=
  Grows.part h (fun l => Snode.application l r s) (r.unset + if s then 0 else 1)
    (fun he => by simp only [Snode.unmark, he]) (fun c => by simp only [Snode.unset, Nat.add_assoc])

theorem Grows.right {r r' : Snode} (h : r.Grows r' ch ch') (l : Snode) (s : Bool) :
    (Snode.application l r s).Grows (.application l r' s) ch ch' :=
  Grows.part h (fun r => Snode.application l r s) (l.unset + if s then 0 else 1)
    (fun he => by simp only [Snode.unmark, he]) (fun c => by simp only [Snode.unset]; omega)

theorem Grows.value {v v' : Snode} (h : v.Grows v' ch ch') (x : String) (s : Bool)
    (next : Letrec) : (Letrec.bind x v s next).Grows (.bind x v' s next) ch ch' :=
  Grows.part h (fun v => Letrec.bind x v s next) (next.unset + if s then 0 else 1)
    (fun he => by simp only [Letrec.unmark, he])
    (fun c => by simp only [Letrec.unset, Nat.add_assoc])

theorem Grows.next {next next' : Letrec} (h : next.Grows next' ch ch') (x : String)
    (v : Snode) (s : Bool) : (Letrec.bind x v s next).Grows (.bind x v s next') ch ch' :=
  Grows.part h (fun next => Letrec.bind x v s next) (v.unset + if s then 0 else 1)
    (fun he => by simp only [Letrec.unmark, he]) (fun c => by simp only [Letrec.unset]; omega)

theorem Grows.bindings {bs bs' : Letrec} (h : bs.Grows bs' ch ch') (b : Snode) :
    (Snode.letrec bs b).Grows (.letrec bs' b) ch ch' :=
  Grows.part h (fun bs => Snode.letrec bs b) b.unset (fun he => by simp only [Snode.unmark, he])
    (fun c => by simp only [Snode.unset])

theorem Grows.body {b b' : Snode} (h : b.Grows b' ch ch') (bs : Letrec) :
    (Snode.letrec bs b).Grows (.letrec bs b') ch ch' :=
  Grows.part h (fun b => Snode.letrec bs b) bs.unset (fun he => by simp only [Snode.unmark, he])
    (fun c => by simp only [Snode.unset, Nat.add_comm])

/-- An application is marked. -/
theorem grows_mark (l r : Snode) (s ch : Bool) :
    (Snode.application l r s).Grows (.application l r true) ch (ch || !s) := by
  cases s with
  | true => simpa using Grows.refl _ ch
  | false =>
    refine ⟨rfl, by simp [Snode.unset], fun _ => Or.inr (by simp [Snode.unset]), fun hc => ?_⟩
    simp at hc

theorem markUsed_unmark (used : List String) (bs : Letrec) :
    (markUsed used bs).unmark = bs.unmark := by
  fun_induction markUsed used bs with
  | case1 => rfl
  | case2 x v s next ih => simp [Letrec.unmark, ih]

theorem markUsed_unset (used : List String) (bs : Letrec) :
    (markUsed used bs).unset ≤ bs.unset ∧
      (markUsed used bs ≠ bs → (markUsed used bs).unset < bs.unset) := by
  fun_induction markUsed used bs with
  | case1 => exact ⟨le_rfl, fun h => absurd rfl h⟩
  | case2 x v s next ih =>
    obtain ⟨h1, h2⟩ := ih
    simp only [Letrec.unset]
    by_cases hn : markUsed used next = next
    · rw [hn]
      cases s <;> cases hx : used.contains x <;> simp
    · have h3 := h2 hn
      refine ⟨?_, fun _ => ?_⟩ <;> cases s <;> cases used.contains x <;> simp <;> omega

theorem grows_markUsed {used : List String} {bs : Letrec} (h : markUsed used bs ≠ bs) (ch : Bool) :
    bs.Grows (markUsed used bs) ch (ch || true) := by
  refine ⟨markUsed_unmark used bs, (markUsed_unset used bs).1, fun _ => ?_, fun hc => ?_⟩
  · exact Or.inr ((markUsed_unset used bs).2 h)
  · simp at hc

/-! ## The parts of the analyser -/

section Parts

/-- A program that adds marks to the trees that it gets. -/
def GrowsBy (f : Snode → StrictM Snode) : Prop :=
  ∀ c c' st st', f c st = some (c', st') → c.Grows c' st.2 st'.2

theorem fresh_eq_some {α : Type} {m : StrictM α} {st st' : List String × Bool}
    {r : α × List String} : fresh m st = some (r, st') ↔
      ∃ ch, m ([], st.2) = some (r.1, (r.2, ch)) ∧ st' = (st.1, ch) := by
  unfold fresh
  constructor
  · intro h
    obtain ⟨_, _, h1, h⟩ := bind_eq_some.mp h
    cases h1
    obtain ⟨_, _, h1, h⟩ := bind_eq_some.mp h
    cases h1
    obtain ⟨a, st1, h1, h⟩ := bind_eq_some.mp h
    obtain ⟨_, _, h2, h⟩ := bind_eq_some.mp h
    cases h2
    obtain ⟨_, _, h2, h⟩ := bind_eq_some.mp h
    cases h2
    cases h
    exact ⟨_, h1, rfl⟩
  · rintro ⟨ch, h1, rfl⟩
    refine bind_eq_some.mpr ⟨st, st, rfl, bind_eq_some.mpr ⟨(), ([], st.2), rfl, ?_⟩⟩
    refine bind_eq_some.mpr ⟨_, _, h1, ?_⟩
    rfl

variable {rec : Snode → StrictM Snode} (hrec : GrowsBy rec)

include hrec

theorem checkArg_grows {b s s' : Bool} {l r r' : Snode} {st st' : List String × Bool}
    (h : checkArg rec b r s st = some ((r', s'), st')) :
    (Snode.application l r s).Grows (.application l r' s') st.2 st'.2 := by
  unfold checkArg at h
  split at h
  · obtain ⟨_, st1, h1, h⟩ := bind_eq_some.mp h
    cases h1
    obtain ⟨r1, st2, h2, h⟩ := bind_eq_some.mp h
    cases h
    exact (grows_mark l r s st.2).trans ((hrec _ _ _ _ h2).right l true)
  · cases h
    exact Grows.refl _ _

theorem checkArgs_grows {strictin : Nat → Bool} : ∀ {c c' : Snode} {st st' : List String × Bool},
    checkArgs rec strictin c st = some (c', st') → c.Grows c' st.2 st'.2
  | .application l r s, c', st, st', h => by
    unfold checkArgs at h
    obtain ⟨a, st1, h1, h⟩ := bind_eq_some.mp h
    obtain ⟨l', st2, h2, h⟩ := bind_eq_some.mp h
    cases h
    exact (checkArg_grows hrec h1).trans ((checkArgs_grows h2).left a.1 a.2)
  | .lambda _ _, _, _, _, h => by cases h; exact Grows.refl _ _
  | .builtin _, _, _, _, h => by cases h; exact Grows.refl _ _
  | .symbol _, _, _, _, h => by cases h; exact Grows.refl _ _
  | .letrec _ _, _, _, _, h => by cases h; exact Grows.refl _ _
  | .scref _, _, _, _, h => by cases h; exact Grows.refl _ _
  | .nil, _, _, _, h => by cases h; exact Grows.refl _ _
  | .number _, _, _, _, h => by cases h; exact Grows.refl _ _
  | .string _, _, _, _, h => by cases h; exact Grows.refl _ _

theorem checkIf_grows : GrowsBy (checkIf rec) := by
  intro c c' st st' h
  unfold checkIf at h
  split at h
  · rename_i l t0 s f0 s'
    obtain ⟨t, st1, h1, h⟩ := bind_eq_some.mp h
    obtain ⟨f, st2, h2, h⟩ := bind_eq_some.mp h
    obtain ⟨_, _, h3, h⟩ := bind_eq_some.mp h
    cases h3
    cases h
    obtain ⟨ch1, ht, rfl⟩ := fresh_eq_some.mp h1
    obtain ⟨ch2, hf, rfl⟩ := fresh_eq_some.mp h2
    exact (((hrec _ _ _ _ ht).right l s).left f0 s').trans ((hrec _ _ _ _ hf).right _ s')
  · cases h
    exact Grows.refl _ _

theorem checkSeq_grows : GrowsBy (checkSeq rec) := by
  intro c c' st st' h
  unfold checkSeq at h
  split at h
  · obtain ⟨a, st1, h1, h⟩ := bind_eq_some.mp h
    cases h
    obtain ⟨ch1, ha, rfl⟩ := fresh_eq_some.mp h1
    exact (hrec _ _ _ _ ha).right _ _
  · cases h
    exact Grows.refl _ _

theorem checkCall_grows (scs : List Scomb) (hd : Head) : GrowsBy (checkCall rec scs hd) := by
  intro c c' st st' h
  unfold checkCall at h
  obtain ⟨c1, st1, h1, h⟩ := bind_eq_some.mp h
  refine (checkArgs_grows hrec h1).trans ?_
  split at h
  · exact checkIf_grows hrec _ _ _ _ h
  · exact checkSeq_grows hrec _ _ _ _ h
  · cases h
    exact Grows.refl _ _

theorem checkLeft_grows : GrowsBy (checkLeft rec) := by
  intro c c' st st' h
  unfold checkLeft at h
  split at h
  · obtain ⟨l', st1, h1, h⟩ := bind_eq_some.mp h
    cases h
    exact (hrec _ _ _ _ h1).left _ _
  · cases h
    exact Grows.refl _ _

theorem checkApplication_grows (scs : List Scomb) : GrowsBy (checkApplication rec scs) := by
  intro c c' st st' h
  unfold checkApplication at h
  cases hs : saturated scs c with
  | none =>
    rw [hs] at h
    exact checkLeft_grows hrec _ _ _ _ h
  | some hd =>
    rw [hs] at h
    obtain ⟨c1, st1, h1, h⟩ := bind_eq_some.mp h
    exact (checkCall_grows hrec scs hd _ _ _ _ h1).trans (checkLeft_grows hrec _ _ _ _ h)

theorem checkBindings_grows : ∀ {bs bs' : Letrec} {st st' : List String × Bool},
    checkBindings rec bs st = some (bs', st') → bs.Grows bs' st.2 st'.2
  | .done, _, _, _, h => by
    cases h
    exact Grows.refl _ _
  | .bind x v true next, _, _, _, h => by
    unfold checkBindings at h
    obtain ⟨v', st1, h1, h⟩ := bind_eq_some.mp h
    obtain ⟨next', st2, h2, h⟩ := bind_eq_some.mp h
    cases h
    exact ((hrec _ _ _ _ h1).value x true next).trans ((checkBindings_grows h2).next x v' true)
  | .bind x v false next, _, _, _, h => by
    unfold checkBindings at h
    obtain ⟨next', st2, h2, h⟩ := bind_eq_some.mp h
    cases h
    exact (checkBindings_grows h2).next x v false

theorem checkLetrec_grows : ∀ (k : Nat) {bs : Letrec} {b c' : Snode} {st st' : List String × Bool},
    checkLetrec rec k bs b st = some (c', st') → (Snode.letrec bs b).Grows c' st.2 st'.2
  | 0, _, _, _, _, _, h => by cases h
  | k + 1, bs, b, c', st, st', h => by
    unfold checkLetrec at h
    obtain ⟨bs1, st1, h1, h⟩ := bind_eq_some.mp h
    obtain ⟨b1, st2, h2, h⟩ := bind_eq_some.mp h
    obtain ⟨_, _, h3, h⟩ := bind_eq_some.mp h
    cases h3
    refine ((checkBindings_grows hrec h1).bindings b).trans (((hrec _ _ _ _ h2).body bs1).trans ?_)
    split at h
    · cases h
      exact Grows.refl _ _
    · rename_i hne
      obtain ⟨_, _, h4, h⟩ := bind_eq_some.mp h
      cases h4
      exact ((grows_markUsed hne st2.2).bindings b1).trans (checkLetrec_grows k h)

end Parts

theorem checkStrictnessR_grows (scs : List Scomb) : ∀ d, GrowsBy (checkStrictnessR scs d)
  | 0 => fun _ _ _ _ h => by cases h
  | d + 1 => by
    have ih := checkStrictnessR_grows scs d
    intro c c' st st' h
    cases c with
    | letrec bs b =>
      simp only [checkStrictnessR] at h
      obtain ⟨r, st1, h1, h⟩ := bind_eq_some.mp h
      obtain ⟨_, _, h2, h⟩ := bind_eq_some.mp h
      cases h2
      cases h
      obtain ⟨ch, hl, rfl⟩ := fresh_eq_some.mp h1
      have hg := checkLetrec_grows ih _ hl
      exact hg
    | application l r s => exact checkApplication_grows ih scs _ _ _ _ h
    | symbol x =>
      cases h
      exact Grows.refl _ _
    | lambda x b => cases h
    | builtin b =>
      cases h
      exact Grows.refl _ _
    | scref i =>
      cases h
      exact Grows.refl _ _
    | nil =>
      cases h
      exact Grows.refl _ _
    | number d =>
      cases h
      exact Grows.refl _ _
    | string x =>
      cases h
      exact Grows.refl _ _

end

/-! ## The recursion ends -/

mutual

theorem height_unmark : ∀ e : Snode, e.unmark.height = e.height
  | .application l r s => by simp [Snode.unmark, Snode.height, height_unmark l, height_unmark r]
  | .lambda x b => by simp [Snode.unmark, Snode.height, height_unmark b]
  | .letrec bs b => by
    simp [Snode.unmark, Snode.height, Letrec.height_unmark bs, height_unmark b]
  | .builtin _ => rfl
  | .symbol _ => rfl
  | .scref _ => rfl
  | .nil => rfl
  | .number _ => rfl
  | .string _ => rfl

theorem Letrec.height_unmark : ∀ bs : Letrec, bs.unmark.height = bs.height
  | .done => rfl
  | .bind x v s next => by
    simp [Letrec.unmark, Letrec.height, Compiler.height_unmark v, Letrec.height_unmark next]

end

mutual

theorem lambdaFree_unmark : ∀ e : Snode, e.unmark.lambdaFree = e.lambdaFree
  | .application l r s => by
    simp [Snode.unmark, Snode.lambdaFree, lambdaFree_unmark l, lambdaFree_unmark r]
  | .lambda x b => rfl
  | .letrec bs b => by
    simp [Snode.unmark, Snode.lambdaFree, Letrec.lambdaFree_unmark bs, lambdaFree_unmark b]
  | .builtin _ => rfl
  | .symbol _ => rfl
  | .scref _ => rfl
  | .nil => rfl
  | .number _ => rfl
  | .string _ => rfl

theorem Letrec.lambdaFree_unmark : ∀ bs : Letrec, bs.unmark.lambdaFree = bs.lambdaFree
  | .done => rfl
  | .bind x v s next => by
    simp [Letrec.unmark, Letrec.lambdaFree, Compiler.lambdaFree_unmark v,
      Letrec.lambdaFree_unmark next]

end

/-- A tree that the analyser can go through with the bound `d` on its recursion. -/
def Snode.Fits (d : Nat) (c : Snode) : Prop := c.height ≤ d ∧ c.lambdaFree = true

def Letrec.Fits (d : Nat) (bs : Letrec) : Prop := bs.height ≤ d ∧ bs.lambdaFree = true

theorem Snode.Fits.congr {d : Nat} {c c' : Snode} (h : c.Fits d) (hc : c'.unmark = c.unmark) :
    c'.Fits d := by
  refine ⟨?_, ?_⟩
  · rw [← height_unmark c', hc, height_unmark]
    exact h.1
  · rw [← lambdaFree_unmark c', hc, lambdaFree_unmark]
    exact h.2

theorem Letrec.Fits.congr {d : Nat} {bs bs' : Letrec} (h : bs.Fits d)
    (hc : bs'.unmark = bs.unmark) : bs'.Fits d := by
  refine ⟨?_, ?_⟩
  · rw [← Letrec.height_unmark bs', hc, Letrec.height_unmark]
    exact h.1
  · rw [← Letrec.lambdaFree_unmark bs', hc, Letrec.lambdaFree_unmark]
    exact h.2

theorem fits_application {d : Nat} {l r : Snode} {s : Bool} :
    (Snode.application l r s).Fits (d + 1) ↔ l.Fits d ∧ r.Fits d := by
  simp only [Snode.Fits, Snode.height, Snode.lambdaFree, Bool.and_eq_true,
    Nat.add_le_add_iff_right, Nat.max_le]
  tauto

theorem fits_letrec {d : Nat} {bs : Letrec} {b : Snode} :
    (Snode.letrec bs b).Fits (d + 1) ↔ bs.Fits d ∧ b.Fits d := by
  simp only [Snode.Fits, Letrec.Fits, Snode.height, Snode.lambdaFree, Bool.and_eq_true,
    Nat.add_le_add_iff_right, Nat.max_le]
  tauto

theorem fits_bind {d : Nat} {x : String} {v : Snode} {s : Bool} {next : Letrec} :
    (Letrec.bind x v s next).Fits d ↔ v.Fits d ∧ next.Fits d := by
  simp only [Snode.Fits, Letrec.Fits, Letrec.height, Letrec.lambdaFree, Bool.and_eq_true,
    Nat.max_le]
  tauto

/-- The number of bindings without a mark. -/
def Letrec.unmarked : Letrec → Nat
  | .done => 0
  | .bind _ _ s next => next.unmarked + if s then 0 else 1

theorem unmarked_le : ∀ bs : Letrec, bs.unmarked ≤ bs.names.length
  | .done => le_rfl
  | .bind x v s next => by
    have := unmarked_le next
    cases s <;> simp [Letrec.unmarked, Letrec.names] <;> omega

theorem markUsed_unmarked (used : List String) : ∀ bs : Letrec,
    (markUsed used bs).unmarked ≤ bs.unmarked ∧
      (markUsed used bs ≠ bs → (markUsed used bs).unmarked < bs.unmarked)
  | .done => ⟨le_rfl, fun h => absurd rfl h⟩
  | .bind x v s next => by
    obtain ⟨h1, h2⟩ := markUsed_unmarked used next
    simp only [markUsed, Letrec.unmarked]
    by_cases hn : markUsed used next = next
    · rw [hn]
      cases s <;> cases hx : used.contains x <;> simp
    · have h3 := h2 hn
      refine ⟨?_, fun _ => ?_⟩ <;> cases s <;> cases used.contains x <;> simp <;> omega

section Parts

variable {rec : Snode → StrictM Snode} {d : Nat} (hrec : GrowsBy rec)
  (hsome : ∀ c, c.Fits d → ∀ st, ∃ r, rec c st = some r)

/-- Run after a program that ends. -/
theorem bind_some_of {α β : Type} {m : StrictM α} {f : α → StrictM β} {st : List String × Bool}
    (hm : ∃ r, m st = some r) (hf : ∀ a st', m st = some (a, st') → ∃ r, f a st' = some r) :
    ∃ r, (m >>= f) st = some r := by
  obtain ⟨⟨a, st'⟩, h1⟩ := hm
  obtain ⟨r, h2⟩ := hf a st' h1
  exact ⟨r, bind_eq_some.mpr ⟨a, st', h1, h2⟩⟩

theorem fresh_some {α : Type} {m : StrictM α} {st : List String × Bool}
    (hm : ∃ r, m ([], st.2) = some r) : ∃ r, fresh m st = some r := by
  obtain ⟨⟨a, u, ch⟩, h⟩ := hm
  exact ⟨((a, u), (st.1, ch)), fresh_eq_some.mpr ⟨ch, h, rfl⟩⟩

include hsome

theorem checkArg_some (b s : Bool) {r : Snode} (hr : r.Fits d) (st : List String × Bool) :
    ∃ x, checkArg rec b r s st = some x := by
  unfold checkArg
  split
  · refine bind_some_of ⟨_, rfl⟩ (fun _ st1 _ => ?_)
    exact bind_some_of (hsome r hr st1) (fun _ _ _ => ⟨_, rfl⟩)
  · exact ⟨_, rfl⟩

theorem checkArgs_some (strictin : Nat → Bool) : ∀ (c : Snode) (st : List String × Bool),
    c.Fits (d + 1) → ∃ r, checkArgs rec strictin c st = some r
  | .application l r s, st, h => by
    rw [fits_application] at h
    unfold checkArgs
    refine bind_some_of (checkArg_some hsome _ s h.2 st) (fun a st1 _ => ?_)
    refine bind_some_of (checkArgs_some strictin l st1 ?_) (fun _ _ _ => ⟨_, rfl⟩)
    exact ⟨le_trans h.1.1 (Nat.le_succ d), h.1.2⟩
  | .lambda _ _, _, _ => ⟨_, rfl⟩
  | .builtin _, _, _ => ⟨_, rfl⟩
  | .symbol _, _, _ => ⟨_, rfl⟩
  | .letrec _ _, _, _ => ⟨_, rfl⟩
  | .scref _, _, _ => ⟨_, rfl⟩
  | .nil, _, _ => ⟨_, rfl⟩
  | .number _, _, _ => ⟨_, rfl⟩
  | .string _, _, _ => ⟨_, rfl⟩

theorem checkIf_some {c : Snode} (h : c.Fits (d + 1)) (st : List String × Bool) :
    ∃ r, checkIf rec c st = some r := by
  unfold checkIf
  split
  · rw [fits_application] at h
    have ht : (_ : Snode).Fits d := (fits_application.mp ⟨le_trans h.1.1 (Nat.le_succ d), h.1.2⟩).2
    refine bind_some_of (fresh_some (hsome _ ht _)) (fun t st1 _ => ?_)
    refine bind_some_of (fresh_some (hsome _ h.2 _)) (fun f st2 _ => ⟨_, rfl⟩)
  · exact ⟨_, rfl⟩

theorem checkSeq_some {c : Snode} (h : c.Fits (d + 1)) (st : List String × Bool) :
    ∃ r, checkSeq rec c st = some r := by
  unfold checkSeq
  split
  · rw [fits_application] at h
    exact bind_some_of (fresh_some (hsome _ h.2 _)) (fun a st1 _ => ⟨_, rfl⟩)
  · exact ⟨_, rfl⟩

theorem checkLeft_some {c : Snode} (h : c.Fits (d + 1)) (st : List String × Bool) :
    ∃ r, checkLeft rec c st = some r := by
  unfold checkLeft
  split
  · rw [fits_application] at h
    exact bind_some_of (hsome _ h.1 st) (fun l' st1 _ => ⟨_, rfl⟩)
  · exact ⟨_, rfl⟩

theorem checkBindings_some : ∀ (bs : Letrec) (st : List String × Bool), bs.Fits d →
    ∃ r, checkBindings rec bs st = some r
  | .done, _, _ => ⟨_, rfl⟩
  | .bind x v true next, st, h => by
    rw [fits_bind] at h
    refine bind_some_of (hsome v h.1 st) (fun v' st1 _ => ?_)
    exact bind_some_of (checkBindings_some next st1 h.2) (fun _ _ _ => ⟨_, rfl⟩)
  | .bind x v false next, st, h => by
    rw [fits_bind] at h
    exact bind_some_of (checkBindings_some next st h.2) (fun _ _ _ => ⟨_, rfl⟩)

include hrec

theorem checkCall_some (scs : List Scomb) (hd : Head) {c : Snode} (h : c.Fits (d + 1))
    (st : List String × Bool) : ∃ r, checkCall rec scs hd c st = some r := by
  unfold checkCall
  refine bind_some_of (checkArgs_some hsome _ c st h) (fun c1 st1 h1 => ?_)
  have h2 := h.congr (checkArgs_grows hrec h1).unmark
  split
  · exact checkIf_some hsome h2 st1
  · exact checkSeq_some hsome h2 st1
  · exact ⟨_, rfl⟩

theorem checkApplication_some (scs : List Scomb) {c : Snode} (h : c.Fits (d + 1))
    (st : List String × Bool) : ∃ r, checkApplication rec scs c st = some r := by
  unfold checkApplication
  cases saturated scs c with
  | none => exact checkLeft_some hsome h st
  | some hd =>
    refine bind_some_of (checkCall_some hrec hsome scs hd h st) (fun c1 st1 h1 => ?_)
    exact checkLeft_some hsome (h.congr (checkCall_grows hrec scs hd _ _ _ _ h1).unmark) st1

omit hsome hrec in
/-- The values of the bindings get marks, the bindings themselves do not. -/
theorem checkBindings_unmarked : ∀ (bs : Letrec) {bs' : Letrec} {st st' : List String × Bool},
    checkBindings rec bs st = some (bs', st') → bs'.unmarked = bs.unmarked
  | .done, _, _, _, h => by
    cases h
    rfl
  | .bind x v true next, _, _, _, h => by
    obtain ⟨v', st1, _, h⟩ := bind_eq_some.mp h
    obtain ⟨next', st2, h2, h⟩ := bind_eq_some.mp h
    cases h
    simp only [Letrec.unmarked, checkBindings_unmarked next h2]
  | .bind x v false next, _, _, _, h => by
    obtain ⟨next', st2, h2, h⟩ := bind_eq_some.mp h
    cases h
    simp only [Letrec.unmarked, checkBindings_unmarked next h2]

theorem checkLetrec_some : ∀ (k : Nat) (bs : Letrec) (b : Snode) (st : List String × Bool),
    bs.unmarked < k → bs.Fits d → b.Fits d → ∃ r, checkLetrec rec k bs b st = some r
  | 0, _, _, _, h, _, _ => by omega
  | k + 1, bs, b, st, hk, hbs, hb => by
    unfold checkLetrec
    refine bind_some_of (checkBindings_some hsome bs st hbs) (fun bs1 st1 h1 => ?_)
    refine bind_some_of (hsome b hb st1) (fun b1 st2 h2 => ?_)
    refine bind_some_of ⟨_, rfl⟩ (fun st3 st4 h3 => ?_)
    cases h3
    split
    · exact ⟨_, rfl⟩
    · rename_i hne
      refine bind_some_of ⟨_, rfl⟩ (fun _ st5 _ => ?_)
      refine checkLetrec_some k _ b1 st5 ?_ ?_ (hb.congr (hrec _ _ _ _ h2).unmark)
      · have h4 := (markUsed_unmarked st2.1 bs1).2 hne
        rw [checkBindings_unmarked bs h1] at h4
        omega
      · refine hbs.congr ?_
        rw [markUsed_unmark, (checkBindings_grows hrec h1).unmark]

end Parts

/-- The height of the tree is enough. -/
theorem checkStrictnessR_some (scs : List Scomb) : ∀ d c, c.Fits d → ∀ st,
    ∃ r, checkStrictnessR scs d c st = some r
  | 0, c, h, _ => by
    have h1 := h.1
    cases c <;> simp [Snode.height] at h1
  | d + 1, c, h, st => by
    have hsome := checkStrictnessR_some scs d
    have hgrows := checkStrictnessR_grows scs d
    cases c with
    | letrec bs b =>
      obtain ⟨hbs, hb⟩ := fits_letrec.mp h
      simp only [checkStrictnessR]
      refine bind_some_of (fresh_some ?_) (fun r st1 _ => ⟨_, rfl⟩)
      exact checkLetrec_some hgrows hsome _ bs b _ (Nat.lt_succ_of_le (unmarked_le bs)) hbs hb
    | application l r s => exact checkApplication_some hgrows hsome scs h st
    | lambda x b =>
      have h2 := h.2
      simp [Snode.lambdaFree] at h2
    | symbol x => exact ⟨_, rfl⟩
    | builtin b => exact ⟨_, rfl⟩
    | scref i => exact ⟨_, rfl⟩
    | nil => exact ⟨_, rfl⟩
    | number d => exact ⟨_, rfl⟩
    | string x => exact ⟨_, rfl⟩

/-! ## The iterations end -/

/-- A supercombinator without its marks and flags. -/
def Scomb.unmark (sc : Scomb) : Scomb := { sc with body := sc.body.unmark, strictin := none }

def Scomb.unset (sc : Scomb) : Nat := sc.body.unset + sc.flags.count false

def tableUnmark (scs : List Scomb) : List Scomb := scs.map Scomb.unmark

def tableUnset (scs : List Scomb) : Nat := (scs.map Scomb.unset).sum

abbrev TableGrows (scs scs' : List Scomb) (ch ch' : Bool) : Prop :=
  Grows tableUnmark tableUnset scs scs' ch ch'

/-- The flags are there, one for each argument. -/
def Scomb.Flagged (sc : Scomb) : Prop := ∃ l, sc.strictin = some l ∧ l.length = sc.nargs

/-- What the analyser takes: flags for each supercombinator, and no lambdas. -/
def Ready (scs : List Scomb) : Prop := ∀ sc ∈ scs, sc.Flagged ∧ sc.body.lambdaFree = true

theorem zipWith_flags (p : String → Bool) : ∀ (l : List Bool) (xs : List String),
    l.length = xs.length →
    (List.zipWith (fun s x => s || p x) l xs).length = l.length ∧
    (List.zipWith (fun s x => s || p x) l xs).count false ≤ l.count false ∧
    (List.zipWith (fun s x => s || p x) l xs ≠ l →
      (List.zipWith (fun s x => s || p x) l xs).count false < l.count false)
  | [], [], _ => ⟨rfl, le_rfl, fun h => absurd rfl h⟩
  | s :: l, x :: xs, h => by
    obtain ⟨h1, h2, h3⟩ := zipWith_flags p l xs (by simpa using h)
    simp only [List.zipWith_cons_cons, List.length_cons, h1, List.count_cons, true_and]
    by_cases hn : List.zipWith (fun s x => s || p x) l xs = l
    · rw [hn]
      cases s <;> cases p x <;> simp
    · have h4 := h3 hn
      refine ⟨?_, fun _ => ?_⟩ <;> cases s <;> cases p x <;> simp <;> omega

theorem set_of_getElem? {α : Type} : ∀ {l : List α} {i : Nat} {a : α}, l[i]? = some a → l.set i a = l
  | [], i, a, h => by simp at h
  | x :: l, 0, a, h => by
    simp only [List.getElem?_cons_zero, Option.some.injEq] at h
    rw [List.set_cons_zero, h]
  | x :: l, i + 1, a, h => by
    rw [List.getElem?_cons_succ] at h
    rw [List.set_cons_succ, set_of_getElem? h]

theorem tableUnset_set (sc' : Scomb) : ∀ {scs : List Scomb} {i : Nat} {sc : Scomb},
    scs[i]? = some sc → tableUnset (scs.set i sc') + sc.unset = tableUnset scs + sc'.unset
  | [], i, _, h => by simp at h
  | x :: scs, 0, sc, h => by
    simp only [List.getElem?_cons_zero, Option.some.injEq] at h
    simp only [tableUnset, List.set_cons_zero, List.map_cons, List.sum_cons, h]
    omega
  | x :: scs, i + 1, sc, h => by
    rw [List.getElem?_cons_succ] at h
    have := tableUnset_set sc' h
    simp only [tableUnset, List.set_cons_succ, List.map_cons, List.sum_cons] at this ⊢
    omega

/-- One supercombinator of a table. -/
theorem table_grows {scs : List Scomb} {i : Nat} {sc sc' : Scomb} {ch ch' : Bool}
    (hi : scs[i]? = some sc) (h : Grows Scomb.unmark Scomb.unset sc sc' ch ch') :
    TableGrows scs (scs.set i sc') ch ch' := by
  have hu := tableUnset_set sc' hi
  refine ⟨?_, ?_, fun hc => (h.changed hc).imp id (fun hlt => ?_), fun hc => ?_⟩
  · simp only [tableUnmark, List.map_set, h.unmark]
    exact set_of_getElem? (by rw [List.getElem?_map, hi, Option.map_some])
  · have := h.unset
    omega
  · omega
  · rw [(h.same hc).2]
    exact ⟨(h.same hc).1, set_of_getElem? hi⟩

theorem flags_of_flagged {sc : Scomb} (h : sc.Flagged) :
    sc.strictin = some sc.flags ∧ sc.flags.length = sc.nargs := by
  obtain ⟨l, hl, hlen⟩ := h
  simp only [Scomb.flags, hl, Option.getD_some]
  exact ⟨trivial, hlen⟩

theorem checkStrictness_grows {scs scs' : List Scomb} {i : Nat} {ch ch' : Bool} (hr : Ready scs)
    (h : checkStrictness scs i ch = some (scs', ch')) : TableGrows scs scs' ch ch' ∧ Ready scs' := by
  obtain ⟨sc, hi, h⟩ := Option.bind_eq_some_iff.mp h
  obtain ⟨⟨body, used, ch1⟩, hb, h⟩ := Option.bind_eq_some_iff.mp h
  cases h
  have hmem : sc ∈ scs := List.mem_of_getElem? hi
  obtain ⟨hstrict, hlen⟩ := flags_of_flagged (hr sc hmem).1
  obtain ⟨hf1, hf2, hf3⟩ := zipWith_flags (fun x => used.contains x) sc.flags sc.argnames hlen
  have hg := checkStrictnessR_grows scs _ _ _ _ _ hb
  have hu := hg.unset
  refine ⟨table_grows hi ⟨?_, ?_, fun hc => ?_, fun hc => ?_⟩, fun x hx => ?_⟩
  · simp only [Scomb.unmark, hg.unmark]
  · simp only [Scomb.unset, Scomb.flags, Option.getD_some, newFlags] at hf2 ⊢
    omega
  · simp only [Bool.or_eq_true, bne_iff_ne, ne_eq] at hc
    simp only [Scomb.unset]
    rcases hc with hc | hc
    · refine (hg.changed hc).imp id (fun hlt => ?_)
      simp only [Scomb.flags, Option.getD_some, newFlags] at hf2 ⊢
      omega
    · right
      have := hf3 hc
      simp only [Scomb.flags, Option.getD_some, newFlags] at this ⊢
      omega
  · simp only [Bool.or_eq_false_iff, bne_eq_false_iff_eq] at hc
    obtain ⟨h1, h2⟩ := hg.same hc.1
    refine ⟨h1, ?_⟩
    rw [hc.2, h2, ← hstrict]
  · rcases List.mem_or_eq_of_mem_set hx with hx | rfl
    · exact hr x hx
    · refine ⟨⟨_, rfl, hf1.trans hlen⟩, ?_⟩
      simp only
      rw [← lambdaFree_unmark, hg.unmark, lambdaFree_unmark]
      exact (hr sc hmem).2

theorem checkStrictness_some {scs : List Scomb} {i : Nat} (hr : Ready scs) (hi : i < scs.length)
    (ch : Bool) : ∃ r, checkStrictness scs i ch = some r := by
  obtain ⟨⟨body, st⟩, hb⟩ := checkStrictnessR_some scs scs[i].body.height scs[i].body
    ⟨le_rfl, (hr _ (List.getElem_mem hi)).2⟩ ([], ch)
  have hi' := List.getElem?_eq_getElem hi
  exact ⟨_, Option.bind_eq_some_iff.mpr ⟨_, hi', Option.bind_eq_some_iff.mpr ⟨_, hb, rfl⟩⟩⟩

theorem strictnessRound_grows : ∀ (k i : Nat) {scs scs' : List Scomb} {ch ch' : Bool}, Ready scs →
    strictnessRound k i scs ch = some (scs', ch') → TableGrows scs scs' ch ch' ∧ Ready scs'
  | 0, _, _, _, _, _, hr, h => by
    cases h
    exact ⟨Grows.refl _ _, hr⟩
  | k + 1, i, scs, scs', ch, ch', hr, h => by
    obtain ⟨⟨scs1, ch1⟩, h1, h⟩ := Option.bind_eq_some_iff.mp h
    obtain ⟨hg1, hr1⟩ := checkStrictness_grows hr h1
    obtain ⟨hg2, hr2⟩ := strictnessRound_grows k (i + 1) hr1 h
    exact ⟨hg1.trans hg2, hr2⟩

theorem length_of_grows {scs scs' : List Scomb} {ch ch' : Bool} (h : TableGrows scs scs' ch ch') :
    scs'.length = scs.length := by
  have := congrArg List.length h.unmark
  simpa [tableUnmark] using this

theorem strictnessRound_some : ∀ (k i : Nat) {scs : List Scomb} (ch : Bool), Ready scs →
    i + k ≤ scs.length → ∃ r, strictnessRound k i scs ch = some r
  | 0, _, _, _, _, _ => ⟨_, rfl⟩
  | k + 1, i, scs, ch, hr, hik => by
    obtain ⟨⟨scs1, ch1⟩, h1⟩ := checkStrictness_some hr (show i < scs.length by omega) ch
    obtain ⟨hg, hr1⟩ := checkStrictness_grows hr h1
    obtain ⟨r, h2⟩ := strictnessRound_some k (i + 1) ch1 hr1 (by rw [length_of_grows hg]; omega)
    exact ⟨r, Option.bind_eq_some_iff.mpr ⟨_, h1, h2⟩⟩

/-- As many iterations as there are marks and flags missing are enough, and the table that they end
with is one that a further iteration leaves as it is. -/
theorem strictnessLoop_ends : ∀ (m : Nat) {scs : List Scomb}, Ready scs → tableUnset scs ≤ m →
    ∃ scs', (∀ k, m < k → strictnessLoop k scs = some scs') ∧ Ready scs' ∧
      strictnessRound scs'.length 0 scs' false = some (scs', false)
  | m, scs, hr, hm => by
    obtain ⟨⟨scs1, ch1⟩, h1⟩ := strictnessRound_some scs.length 0 false hr (by omega)
    obtain ⟨hg, hr1⟩ := strictnessRound_grows _ _ hr h1
    cases ch1 with
    | false =>
      obtain ⟨-, rfl⟩ := hg.same rfl
      refine ⟨scs1, fun k hk => ?_, hr, h1⟩
      match k, hk with
      | k + 1, _ => simp [strictnessLoop, h1]
    | true =>
      have hlt : tableUnset scs1 < tableUnset scs := by
        rcases hg.changed rfl with hc | hc
        · cases hc
        · exact hc
      obtain ⟨scs2, hloop, hr2, hfix⟩ := strictnessLoop_ends (m - 1) hr1 (by omega)
      refine ⟨scs2, fun k hk => ?_, hr2, hfix⟩
      match k, hk with
      | k + 1, hk =>
        simp only [strictnessLoop, h1, Option.bind_eq_bind, Option.bind_some, if_true]
        exact hloop k (by omega)
termination_by m => m
decreasing_by omega

end Compiler
end NReduce
