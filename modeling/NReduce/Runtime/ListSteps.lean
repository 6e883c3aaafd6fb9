import NReduce.Runtime.Compaction
import Mathlib.Data.List.Perm.Subperm

/-!
# NReduce.Runtime.ListSteps

What evaluation does to lists besides `maybe_expand_array`: it makes new cells, it shares an array
between two lists, and it puts the result in the place of a frame. The last one may change what a
list denotes, but lists that are equal stay equal.
-/

namespace NReduce
namespace Runtime
namespace Lists

open Logic
open Stream'
open Store

variable {s : Store}

/-! ## New cells and shared arrays -/

/-- A store with more cells, in which the old ones and the elements of their arrays are as before. -/
structure Extends (s s' : Store) : Prop where
  ncells_le : s.ncells ≤ s'.ncells
  nodes : ∀ c < s.ncells, s'.nodes c = s.nodes c
  elements : ∀ a < s.narrays, (s'.arrays a).elements = (s.arrays a).elements

section

variable {s' : Store} (h : Extends s s') (hw : s.Wf)
include h hw

theorem Extends.elements_aref {c a : Nat} {t : Pntr} (hc : c < s.ncells)
    (hn : s.nodes c = .aref a t) : (s'.arrays a).elements = (s.arrays a).elements :=
  h.elements a (hw.aref c a t hc hn).1

theorem Extends.valid {p : Pntr} (hp : s.Valid p) : s'.Valid p := by
  cases p with
  | num d => trivial
  | obj c i =>
    refine ⟨hp.1.trans_le h.ncells_le, ?_⟩
    have h2 := hp.2
    rw [h.nodes c hp.1]
    cases hn : s.nodes c with
    | aref a t =>
      simp only [hn] at h2
      simpa only [Carray.size, h.elements_aref hw hp.1 hn] using h2
    | _ => simpa only [hn] using h2

theorem Extends.resolveFrom {k : Nat} {p q : Pntr} (hp : s.Valid p)
    (hr : s.resolveFrom k p = some q) : s'.resolveFrom k p = some q := by
  induction k generalizing p with
  | zero => cases hr
  | succ k ih =>
    cases p with
    | num d => exact hr
    | obj c i =>
      rw [Store.resolveFrom] at hr ⊢
      rw [h.nodes c hp.1]
      cases hn : s.nodes c with
      | ind dest =>
        simp only [hn] at hr
        exact ih (hw.ind c dest hp.1 hn) hr
      | _ => simpa only [hn] using hr

theorem Extends.target {p : Pntr} (hp : s.Valid p) : s'.target p = s.target p := by
  have hr : s'.resolvePntr p = some (s.target p) :=
    resolveFrom_mono (Nat.succ_le_succ h.ncells_le) (h.resolveFrom hw hp (hw.resolve hp))
  rw [Store.target, hr, Option.getD_some]

theorem Extends.items {els : Elements} (hok : s.ElementsOk els) : s'.items els = s.items els := by
  cases els with
  | bytes l => rfl
  | pntrs l =>
    apply List.map_congr_left
    intro e he
    rw [item, item, h.target hw (hok l rfl e he)]

theorem Extends.move {p : Pntr} (hp : s.Valid p) : s'.move p = s.move p := by
  have hv := hw.valid_target hp
  simp only [Store.move, h.target hw hp]
  cases hq : s.target p with
  | num d => rfl
  | obj c i =>
    rw [hq] at hv
    simp only [h.nodes c hv.1]
    cases hn : s.nodes c with
    | cons x t => simp only [item, h.target hw (hw.cons c x t hv.1 hn).1]
    | aref a t =>
      have hok := (hw.aref c a t hv.1 hn).2.2.elements
      simp only [Carray.size, h.elements_aref hw hv.1 hn, h.items hw hok]
      rfl
    | _ => rfl

theorem Extends.keeps (hw' : s'.Wf) : Keeps s s' where
  wf := hw'
  valid _ hp := h.valid hw hp
  target _ hp := h.target hw hp
  denote _ hp := unfold_congr (fun _ hq => h.move hw hq) (fun _ _ _ hq => hw.valid_move hq) hp

/-- The cells that there were are as well formed as before. -/
theorem Extends.arrayOk {arr : Carray} (hok : s.ArrayOk arr) : s'.ArrayOk arr :=
  ⟨hok.size_le, hok.alloc_pos, hok.size_le_alloc,
    fun l hl e he => h.valid hw (hok.elements l hl e he), hok.nchars_le, hok.chars⟩

end

/-- What a new cell may hold. An AREF cell shares its array. -/
def Store.NodeOk (s : Store) : Node → Prop
  | .cons h t => s.Valid h ∧ s.Valid t
  | .ind p => s.Valid p
  | .aref a t => a < s.narrays ∧ s.Valid t ∧ s.ArrayOk (s.arrays a) ∧ (s.arrays a).multiref = true
  | _ => True

theorem extends_allocCell (s : Store) (n : Node) : Extends s (s.allocCell n).2 where
  ncells_le := Nat.le_succ _
  nodes _ hc := Function.update_of_ne hc.ne ..
  elements _ _ := rfl

theorem allocCell_node {n : Node} {c : Nat} (hc : c < (s.allocCell n).2.ncells) :
    (c < s.ncells ∧ (s.allocCell n).2.nodes c = s.nodes c) ∨
      (c = s.ncells ∧ (s.allocCell n).2.nodes c = n) := by
  by_cases heq : c = s.ncells
  · subst heq
    exact .inr ⟨rfl, Function.update_self ..⟩
  · have hlt : c < s.ncells + 1 := hc
    exact .inl ⟨by omega, Function.update_of_ne heq ..⟩

theorem wf_allocCell (hw : s.Wf) {n : Node} (hn : s.NodeOk n) : (s.allocCell n).2.Wf := by
  have hex := extends_allocCell s n
  refine ⟨?_, ?_, ?_, ?_, ?_, hex.valid hw hw.nil⟩
  · intro c h t hc hnode
    obtain ⟨hc', heq⟩ | ⟨rfl, heq⟩ := allocCell_node hc
    · obtain ⟨h1, h2⟩ := hw.cons c h t hc' (heq ▸ hnode)
      exact ⟨hex.valid hw h1, hex.valid hw h2⟩
    · obtain rfl := heq.symm.trans hnode
      exact ⟨hex.valid hw hn.1, hex.valid hw hn.2⟩
  · intro c p hc hnode
    obtain ⟨hc', heq⟩ | ⟨rfl, heq⟩ := allocCell_node hc
    · exact hex.valid hw (hw.ind c p hc' (heq ▸ hnode))
    · obtain rfl := heq.symm.trans hnode
      exact hex.valid hw hn
  · intro c a t hc hnode
    obtain ⟨hc', heq⟩ | ⟨rfl, heq⟩ := allocCell_node hc
    · obtain ⟨h1, h2, h3⟩ := hw.aref c a t hc' (heq ▸ hnode)
      exact ⟨h1, hex.valid hw h2, hex.arrayOk hw h3⟩
    · obtain rfl := heq.symm.trans hnode
      exact ⟨hn.1, hex.valid hw hn.2.1, hex.arrayOk hw hn.2.2.1⟩
  · intro c c' a t t' hc hc' hnode hnode' hm
    obtain ⟨hlt, heq⟩ | ⟨rfl, heq⟩ := allocCell_node hc
    · obtain ⟨hlt', heq'⟩ | ⟨rfl, heq'⟩ := allocCell_node hc'
      · exact hw.single c c' a t t' hlt hlt' (heq ▸ hnode) (heq' ▸ hnode') hm
      · obtain rfl := heq'.symm.trans hnode'
        exact absurd (hn.2.2.2.symm.trans hm) (by decide)
    · obtain rfl := heq.symm.trans hnode
      exact absurd (hn.2.2.2.symm.trans hm) (by decide)
  · intro p hp
    cases p with
    | num d => exact ⟨_, rfl⟩
    | obj c i =>
      obtain ⟨hc', heq⟩ | ⟨rfl, heq⟩ := allocCell_node hp.1
      · have hv : s.Valid (.obj c i) := by
          refine ⟨hc', ?_⟩
          have h2 := hp.2
          rw [heq] at h2
          exact h2
        exact ⟨_, resolveFrom_mono (Nat.succ_le_succ hex.ncells_le)
          (hex.resolveFrom hw hv (hw.resolve hv))⟩
      · rw [Store.resolvePntr, Store.resolveFrom, heq]
        cases n with
        | ind q =>
          have hv : s.Valid q := hn
          exact ⟨_, hex.resolveFrom hw hv (hw.resolve hv)⟩
        | _ => exact ⟨_, rfl⟩

theorem keeps_allocCell (hw : s.Wf) {n : Node} (hn : s.NodeOk n) :
    Keeps s (s.allocCell n).2 :=
  (extends_allocCell s n).keeps hw (wf_allocCell hw hn)

/-- `arr->multiref = 1` -/
def setMultiref (a : Nat) (s : Store) : Store :=
  s.setArray a { s.arrays a with multiref := true }

theorem setMultiref_arrays (a b : Nat) :
    (setMultiref a s).arrays b = s.arrays b ∨
      b = a ∧ (setMultiref a s).arrays b = { s.arrays b with multiref := true } := by
  by_cases hb : b = a
  · subst hb
    exact .inr ⟨rfl, Function.update_self ..⟩
  · exact .inl (Function.update_of_ne hb ..)

theorem setMultiref_elements (a b : Nat) :
    ((setMultiref a s).arrays b).elements = (s.arrays b).elements := by
  obtain h | ⟨-, h⟩ := setMultiref_arrays a b (s := s) <;> rw [h]

theorem extends_setMultiref (s : Store) (a : Nat) : Extends s (setMultiref a s) :=
  ⟨le_rfl, fun _ _ => rfl, fun b _ => setMultiref_elements a b⟩

theorem keeps_setMultiref (hw : s.Wf) (a : Nat) : Keeps s (setMultiref a s) := by
  have hex := extends_setMultiref s a
  apply hex.keeps hw
  refine ⟨?_, ?_, ?_, ?_, ?_, hex.valid hw hw.nil⟩
  · intro c h t hc hn
    obtain ⟨h1, h2⟩ := hw.cons c h t hc hn
    exact ⟨hex.valid hw h1, hex.valid hw h2⟩
  · exact fun c p hc hn => hex.valid hw (hw.ind c p hc hn)
  · intro c b t hc hn
    obtain ⟨h1, h2, h3⟩ := hw.aref c b t hc hn
    refine ⟨h1, hex.valid hw h2, ?_⟩
    have hok := hex.arrayOk hw h3
    obtain h | ⟨-, h⟩ := setMultiref_arrays a b (s := s)
    · rwa [h]
    · rw [h]
      exact ⟨hok.size_le, hok.alloc_pos, hok.size_le_alloc, hok.elements, hok.nchars_le, hok.chars⟩
  · intro c c' b t t' hc hc' hn hn' hm
    obtain h | ⟨-, h⟩ := setMultiref_arrays a b (s := s)
    · rw [h] at hm
      exact hw.single c c' b t t' hc hc' hn hn' hm
    · rw [h] at hm
      cases hm
  · intro p hp
    have hv : s.Valid p := by
      cases p with
      | num d => trivial
      | obj c i =>
        refine ⟨hp.1, ?_⟩
        have h2 := hp.2
        cases hn : s.nodes c with
        | aref b t =>
          have hn' : (setMultiref a s).nodes c = .aref b t := hn
          simp only [hn', Carray.size, setMultiref_elements] at h2
          exact h2
        | _ =>
          have hn' : (setMultiref a s).nodes c = s.nodes c := rfl
          rw [hn', hn] at h2
          exact h2
    exact ⟨_, hex.resolveFrom hw hv (hw.resolve hv)⟩

/-! ## The result of a frame -/

/-- The indirections `l` lead from `p` to `r`. -/
inductive Store.Path (s : Store) : Pntr → List Nat → Pntr → Prop
  | done {p : Pntr} : s.isInd p = false → Path s p [] p
  | step {c i : Nat} {p r : Pntr} {l : List Nat} : s.nodes c = .ind p → Path s p l r →
    Path s (.obj c i) (c :: l) r

theorem Store.path_of_resolveFrom {k : Nat} {p r : Pntr} (h : s.resolveFrom k p = some r) :
    ∃ l, s.Path p l r := by
  induction k generalizing p with
  | zero => cases h
  | succ k ih =>
    cases p with
    | num d =>
      cases h
      exact ⟨[], .done rfl⟩
    | obj c i =>
      rw [Store.resolveFrom] at h
      cases hn : s.nodes c with
      | ind dest =>
        simp only [hn] at h
        obtain ⟨l, hl⟩ := ih h
        exact ⟨c :: l, .step hn hl⟩
      | _ =>
        simp only [hn] at h
        cases h
        exact ⟨[], .done (by simp only [isInd, node, hn])⟩

theorem Store.Path.resolveFrom {p r : Pntr} {l : List Nat} (h : s.Path p l r) :
    s.resolveFrom (l.length + 1) p = some r := by
  induction h with
  | @done p hp =>
    cases p with
    | num d => rfl
    | obj c i =>
      rw [Store.resolveFrom]
      cases hn : s.nodes c with
      | ind dest => simp [isInd, node, hn] at hp
      | _ => rfl
  | step hn _ ih =>
    rw [List.length_cons, Store.resolveFrom]
    simp only [hn]
    exact ih

theorem Store.Path.unique {p r r' : Pntr} {l l' : List Nat} (h : s.Path p l r)
    (h' : s.Path p l' r') : l = l' := by
  induction h generalizing l' with
  | done hp =>
    cases h' with
    | done _ => rfl
    | step hn _ => simp [isInd, node, hn] at hp
  | step hn _ ih =>
    cases h' with
    | done hp => simp [isInd, node, hn] at hp
    | step hn' hl' =>
      rw [hn] at hn'
      cases hn'
      rw [ih hl']

/-- From each cell of a path, the rest of the path. -/
theorem Store.Path.suffix {p r : Pntr} {l : List Nat} (h : s.Path p l r) {c : Nat} (hc : c ∈ l) :
    ∃ i l', s.Path (.obj c i) l' r ∧ l'.length ≤ l.length := by
  induction h with
  | done _ => cases hc
  | @step d i q r l hn hl ih =>
    obtain rfl | hc := List.mem_cons.mp hc
    · exact ⟨i, _, .step hn hl, le_rfl⟩
    · obtain ⟨j, l', hp, hle⟩ := ih hc
      exact ⟨j, l', hp, hle.trans (Nat.le_succ _)⟩

/-- The cell, not the index, says where an indirection leads. -/
theorem Store.Path.index {c i j : Nat} {r : Pntr} {l l' : List Nat} (h : s.Path (.obj c i) (c :: l) r)
    {r' : Pntr} (h' : s.Path (.obj c j) l' r') : l' = c :: l := by
  cases h with
  | step hn hl =>
    cases h' with
    | done hp => simp [isInd, node, hn] at hp
    | step hn' hl' =>
      rw [hn] at hn'
      cases hn'
      rw [hl.unique hl']

theorem Store.Path.nodup {p r : Pntr} {l : List Nat} (h : s.Path p l r) : l.Nodup := by
  induction h with
  | done _ => exact List.nodup_nil
  | @step c i q r l hn hl ih =>
    refine List.nodup_cons.mpr ⟨fun hc => ?_, ih⟩
    obtain ⟨j, l', hp, hle⟩ := hl.suffix hc
    have heq := (Path.step (i := i) hn hl).index hp
    rw [heq, List.length_cons] at hle
    omega

theorem Store.Path.lt {p r : Pntr} {l : List Nat} (h : s.Path p l r) (hp : s.Valid p)
    (hind : ∀ c q, c < s.ncells → s.nodes c = .ind q → s.Valid q) : ∀ c ∈ l, c < s.ncells := by
  induction h with
  | done _ => exact fun c hc => by cases hc
  | step hn _ ih =>
    intro c hc
    obtain rfl | hc := List.mem_cons.mp hc
    · exact hp.1
    · exact ih (hind _ _ hp.1 hn) c hc

/-- A path visits no cell twice, so the bound of `resolvePntr` is enough. -/
theorem Store.Path.resolvePntr {p r : Pntr} {l : List Nat} (h : s.Path p l r) (hp : s.Valid p)
    (hind : ∀ c q, c < s.ncells → s.nodes c = .ind q → s.Valid q) :
    s.resolvePntr p = some r := by
  have hsub : l ⊆ List.range s.ncells := fun c hc => List.mem_range.mpr (h.lt hp hind c hc)
  have hle := (List.Nodup.subperm h.nodup hsub).length_le
  rw [List.length_range] at hle
  exact resolveFrom_mono (Nat.succ_le_succ hle) h.resolveFrom

/-- The frame at `c` has returned `q`. -/
def setResult (c : Nat) (q : Pntr) (s : Store) : Store := s.setNode c (.ind q)

/-- The result of a frame does not lead back to it. -/
structure ResultOk (s : Store) (c : Nat) (q : Pntr) : Prop where
  wf : s.Wf
  lt : c < s.ncells
  frame : s.nodes c = .frame
  valid : s.Valid q
  target : s.target q ≠ .obj c 0

section

variable {c : Nat} {q : Pntr} (h : ResultOk s c q)
include h

omit h in
theorem setResult_nodes_self : (setResult c q s).nodes c = .ind q := Function.update_self ..

omit h in
theorem setResult_nodes_of_ne {d : Nat} (hd : d ≠ c) : (setResult c q s).nodes d = s.nodes d :=
  Function.update_of_ne hd ..

theorem ResultOk.valid_iff (p : Pntr) : (setResult c q s).Valid p ↔ s.Valid p := by
  cases p with
  | num d => exact Iff.rfl
  | obj d i =>
    by_cases hd : d = c
    · subst hd
      simp only [Valid, setResult_nodes_self, h.frame]
      rfl
    · simp only [Valid, setResult_nodes_of_ne hd]
      rfl

theorem ResultOk.path {p r : Pntr} {l : List Nat} (hp : s.Valid p) (hl : s.Path p l r) :
    (r ≠ .obj c 0 → (setResult c q s).Path p l r) ∧
      (r = .obj c 0 → ∀ l' r', (setResult c q s).Path q l' r' →
        (setResult c q s).Path p (l ++ c :: l') r') := by
  induction hl with
  | @done p hi =>
    cases p with
    | num d => exact ⟨fun _ => .done rfl, by rintro ⟨⟩⟩
    | obj d i =>
      by_cases hd : d = c
      · subst hd
        have hz : i = 0 := by
          have h2 := hp.2
          simpa only [h.frame] using h2
        subst hz
        exact ⟨fun hne => absurd rfl hne, fun _ l' r' hq => .step setResult_nodes_self hq⟩
      · refine ⟨fun _ => .done ?_, fun heq => absurd (Pntr.obj.inj heq).1 hd⟩
        simpa only [isInd, node, setResult_nodes_of_ne hd] using hi
  | @step d i x r l hn _ ih =>
    have hd : d ≠ c := by
      rintro rfl
      rw [h.frame] at hn
      cases hn
    have hn' : (setResult c q s).nodes d = .ind x := (setResult_nodes_of_ne hd).trans hn
    obtain ⟨h1, h2⟩ := ih (h.wf.ind d x hp.1 hn)
    exact ⟨fun hne => .step hn' (h1 hne), fun heq l' r' hq => .step hn' (h2 heq l' r' hq)⟩

theorem ResultOk.valid_ind {d : Nat} {x : Pntr} (hd : d < s.ncells)
    (hn : (setResult c q s).nodes d = .ind x) : (setResult c q s).Valid x := by
  by_cases heq : d = c
  · subst heq
    rw [setResult_nodes_self] at hn
    cases hn
    exact (h.valid_iff q).mpr h.valid
  · rw [setResult_nodes_of_ne heq] at hn
    exact (h.valid_iff x).mpr (h.wf.ind d x hd hn)

theorem ResultOk.resolve {p : Pntr} (hp : s.Valid p) : (setResult c q s).resolvePntr p =
    some (if s.target p = .obj c 0 then s.target q else s.target p) := by
  obtain ⟨l, hl⟩ := path_of_resolveFrom (h.wf.resolve hp)
  obtain ⟨lq, hlq⟩ := path_of_resolveFrom (h.wf.resolve h.valid)
  have hq := (h.path h.valid hlq).1 h.target
  have hv := (h.valid_iff p).mpr hp
  have hind : ∀ d x, d < (setResult c q s).ncells → (setResult c q s).nodes d = .ind x →
      (setResult c q s).Valid x := fun d x hd hn => h.valid_ind hd hn
  split
  · rename_i heq
    exact ((h.path hp hl).2 heq lq _ hq).resolvePntr hv hind
  · rename_i hne
    exact ((h.path hp hl).1 hne).resolvePntr hv hind

theorem ResultOk.target_eq {p : Pntr} (hp : s.Valid p) : (setResult c q s).target p =
    if s.target p = .obj c 0 then s.target q else s.target p := by
  rw [Store.target, h.resolve hp, Option.getD_some]

theorem ResultOk.wf_setResult : (setResult c q s).Wf := by
  have hv : ∀ {p}, s.Valid p → (setResult c q s).Valid p := fun {p} hp => (h.valid_iff p).mpr hp
  have hne : ∀ {d : Nat} {n : Node}, (setResult c q s).nodes d = n → (∀ p, n ≠ .ind p) →
      s.nodes d = n := by
    intro d n hn hnot
    by_cases hd : d = c
    · subst hd
      rw [setResult_nodes_self] at hn
      exact absurd hn.symm (hnot q)
    · rwa [setResult_nodes_of_ne hd] at hn
  refine ⟨?_, fun d x hd hn => h.valid_ind hd hn, ?_, ?_, ?_, hv h.wf.nil⟩
  · intro d x y hd hn
    obtain ⟨h1, h2⟩ := h.wf.cons d x y hd (hne hn (by simp))
    exact ⟨hv h1, hv h2⟩
  · intro d a y hd hn
    obtain ⟨h1, h2, h3⟩ := h.wf.aref d a y hd (hne hn (by simp))
    exact ⟨h1, hv h2, h3.size_le, h3.alloc_pos, h3.size_le_alloc,
      fun l hl e he => hv (h3.elements l hl e he), h3.nchars_le, h3.chars⟩
  · intro d d' a y y' hd hd' hn hn' hm
    exact h.wf.single d d' a y y' hd hd' (hne hn (by simp)) (hne hn' (by simp)) hm
  · exact fun p hp => ⟨_, h.resolve ((h.valid_iff p).mp hp)⟩

/-- An item, after the result has taken the place of the frame. -/
def Store.newItem (s : Store) (c : Nat) (q : Pntr) (x : Item) : Item :=
  if x = .other (.obj c 0) then Item.of (s.target q) else x

theorem ResultOk.item {p : Pntr} (hp : s.Valid p) :
    (setResult c q s).item p = s.newItem c q (s.item p) := by
  rw [Store.item, h.target_eq hp, newItem, Store.item]
  split
  · rename_i heq
    have ho : Item.of (.obj c 0) = .other (.obj c 0) := rfl
    rw [heq, ho, if_pos rfl]
  · rename_i hne
    rw [if_neg]
    intro heq
    rw [Item.of] at heq
    split at heq
    · cases heq
    · exact hne (Item.other.inj heq)

theorem ResultOk.items {els : Elements} (hok : s.ElementsOk els) :
    (setResult c q s).items els = (s.items els).map (s.newItem c q) := by
  cases els with
  | bytes l =>
    simp only [Store.items, List.map_map]
    apply List.map_congr_left
    intro b _
    have hne : Item.char b ≠ .other (.obj c 0) := by simp
    rw [Function.comp_apply, newItem, if_neg hne]
  | pntrs l =>
    simp only [Store.items, List.map_map]
    exact List.map_congr_left (fun e he => h.item (hok l rfl e he))

/-- A list goes on as before, with new items; where it ended in the frame, it goes on with the
result. -/
theorem ResultOk.move {p : Pntr} (hp : s.Valid p) :
    (∀ x y, s.move p = .item x y → (setResult c q s).move p = .item (s.newItem c q x) y) ∧
      (∀ r, s.move p = .done r → (r ≠ .obj c 0 → (setResult c q s).move p = .done r) ∧
        (r = .obj c 0 → (setResult c q s).move p = (setResult c q s).move q)) := by
  have hv := h.wf.valid_target hp
  have ht := h.target_eq hp
  by_cases heq : s.target p = .obj c 0
  · have hm : s.move p = .done (.obj c 0) := by simp only [Store.move, heq, h.frame]
    refine ⟨fun x y hxy => ?_, fun r hr => ⟨fun hne => ?_, fun _ => move_congr ?_⟩⟩
    · rw [hm] at hxy
      cases hxy
    · rw [hm] at hr
      cases hr
      exact absurd rfl hne
    · rw [ht, if_pos heq, h.target_eq h.valid, if_neg h.target]
  · rw [if_neg heq] at ht
    simp only [Store.move, ht]
    cases hq : s.target p with
    | num d =>
      refine ⟨fun x y hxy => (by cases hxy), fun r hr => ?_⟩
      cases hr
      exact ⟨fun _ => rfl, by rintro ⟨⟩⟩
    | obj d i =>
      rw [hq] at hv heq
      have hd : d ≠ c := by
        rintro rfl
        have h2 := hv.2
        simp only [h.frame] at h2
        exact heq (h2 ▸ rfl)
      simp only [setResult_nodes_of_ne hd]
      cases hn : s.nodes d with
      | cons x y =>
        refine ⟨fun x' y' hxy => ?_, fun r hr => by cases hr⟩
        cases hxy
        simp only [h.item (h.wf.cons d x y hv.1 hn).1]
      | aref a y =>
        have hok := (h.wf.aref d a y hv.1 hn).2.2.elements
        have harr : (setResult c q s).arrays a = s.arrays a := rfl
        simp only [harr, h.items hok, List.getElem?_map]
        cases hx : (s.items (s.arrays a).elements)[i]? with
        | none =>
          refine ⟨fun x' y' hxy => (by cases hxy), fun r hr => ?_⟩
          cases hr
          exact ⟨fun _ => rfl, fun he => absurd (Pntr.obj.inj he).1 hd⟩
        | some x =>
          refine ⟨fun x' y' hxy => ?_, fun r hr => by cases hr⟩
          cases hxy
          rfl
      | _ =>
        refine ⟨fun x' y' hxy => (by cases hxy), fun r hr => ?_⟩
        cases hr
        exact ⟨fun _ => rfl, fun he => absurd (Pntr.obj.inj he).1 hd⟩

/-- Lists that were equal still are. -/
theorem ResultOk.denote_congr {p t : Pntr} (hp : s.Valid p) (ht : s.Valid t)
    (heq : s.denote p = s.denote t) :
    (setResult c q s).denote p = (setResult c q s).denote t := by
  apply Seq.eq_of_bisim_strong (fun a b => ∃ p t, s.Valid p ∧ s.Valid t ∧ s.denote p = s.denote t ∧
    a = (setResult c q s).denote p ∧ b = (setResult c q s).denote t) ⟨p, t, hp, ht, heq, rfl, rfl⟩
  rintro _ _ ⟨p, t, hp, ht, heq, rfl, rfl⟩
  have hp' := h.move hp
  have ht' := h.move ht
  cases hmp : s.move p with
  | item x y =>
    cases hmt : s.move t with
    | item x' y' =>
      rw [denote, denote, unfold_item hmp, unfold_item hmt] at heq
      obtain ⟨hx, htl⟩ := Seq.cons_injective2 heq
      obtain rfl := Sum.inl.inj hx
      exact .inr ⟨_, _, _, unfold_item (hp'.1 x y hmp), unfold_item (ht'.1 x y' hmt), y, y',
        h.wf.valid_move hp hmp, h.wf.valid_move ht hmt, htl, rfl, rfl⟩
    | done r =>
      rw [denote, denote, unfold_item hmp, unfold_done hmt] at heq
      cases (Seq.cons_injective2 heq).1
  | done r =>
    cases hmt : s.move t with
    | item x' y' =>
      rw [denote, denote, unfold_done hmp, unfold_item hmt] at heq
      cases (Seq.cons_injective2 heq).1
    | done r' =>
      rw [denote, denote, unfold_done hmp, unfold_done hmt] at heq
      obtain rfl := Sum.inr.inj (Seq.cons_injective2 heq).1
      left
      apply unfold_eq_of_eq
      by_cases hr : r = .obj c 0
      · rw [(hp'.2 r hmp).2 hr, (ht'.2 r hmt).2 hr]
      · rw [(hp'.2 r hmp).1 hr, (ht'.2 r hmt).1 hr]

/-- A list that starts with the items `xs` still starts with them. -/
theorem ResultOk.denote_prepend {xs : List Item} {t : Pntr} (ht : s.Valid t) :
    ∀ {p : Pntr}, s.Valid p → s.denote p = prepend xs (s.denote t) →
      (setResult c q s).denote p =
        prepend (xs.map (s.newItem c q)) ((setResult c q s).denote t) := by
  induction xs with
  | nil => exact fun hp heq => h.denote_congr hp ht heq
  | cons x xs ih =>
    intro p hp heq
    cases hmp : s.move p with
    | item y r =>
      rw [denote, unfold_item hmp, prepend_cons] at heq
      obtain ⟨hx, htl⟩ := Seq.cons_injective2 heq
      obtain rfl := Sum.inl.inj hx
      rw [denote, unfold_item ((h.move hp).1 y r hmp), List.map_cons, prepend_cons]
      exact congrArg _ (ih (h.wf.valid_move hp hmp) htl)
    | done r =>
      rw [denote, unfold_done hmp, prepend_cons] at heq
      cases (Seq.cons_injective2 heq).1

end

end Lists
end Runtime
end NReduce
