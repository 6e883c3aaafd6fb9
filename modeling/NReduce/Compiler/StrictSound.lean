import NReduce.Compiler.Demand
import NReduce.Compiler.StrictFix

/-!
# NReduce.Compiler.StrictSound

The strictness analyser is sound: an argument with a flag is evaluated by every call that reaches
weak head normal form, and a binding with a mark by every evaluation of its letrec.

The flags are right at the start, where there are none, and every part of an iteration keeps them
right: the variables that it collects are demanded, by what is known of the flags before.
-/

namespace NReduce
namespace Compiler

open Logic

/-! ## Lists of names -/

theorem mem_addVar {x y : String} : ∀ {l : List String}, x ∈ addVar l y → x ∈ l ∨ x = y
  | [], h => by
    simp only [addVar, List.mem_singleton] at h
    exact Or.inr h
  | z :: l, h => by
    unfold addVar at h
    split at h
    · rcases List.mem_cons.mp h with rfl | h
      · exact Or.inl List.mem_cons_self
      · exact (mem_addVar h).imp (List.mem_cons_of_mem _) id
    · exact Or.inl h
    · rcases List.mem_cons.mp h with rfl | h
      · exact Or.inr rfl
      · exact Or.inl h

theorem mem_addVars {x : String} : ∀ (xs : List String) {l : List String}, x ∈ addVars l xs →
    x ∈ l ∨ x ∈ xs
  | [], _, h => Or.inl h
  | y :: xs, l, h => by
    rw [addVars] at h
    rcases mem_addVars xs h with h | h
    · rcases mem_addVar h with h | rfl
      · exact Or.inl h
      · exact Or.inr List.mem_cons_self
    · exact Or.inr (List.mem_cons_of_mem _ h)

theorem mem_addUnion {x : String} : ∀ {as bs dest : List String}, x ∈ addUnion dest as bs →
    x ∈ dest ∨ x ∈ as ∧ x ∈ bs
  | [], _, _, h => Or.inl h
  | a :: as, bs, dest, h => by
    have hsub : ∀ {y : String}, y ∈ bs.dropWhile (fun b => compare a b = .gt) → y ∈ bs :=
      fun hy => (List.dropWhile_sublist _).subset hy
    unfold addUnion at h
    split at h
    · exact Or.inl h
    · rename_i b bs' hd
      rw [hd] at hsub
      split at h
      · rename_i hc
        rcases mem_addUnion h with h | h
        · rcases mem_addVar h with h | rfl
          · exact Or.inl h
          · rw [Std.compare_eq_iff_eq] at hc
            exact Or.inr ⟨List.mem_cons_self, hsub (hc ▸ List.mem_cons_self)⟩
        · exact Or.inr ⟨List.mem_cons_of_mem _ h.1, hsub (List.mem_cons_of_mem _ h.2)⟩
      · rcases mem_addUnion h with h | h
        · exact Or.inl h
        · exact Or.inr ⟨List.mem_cons_of_mem _ h.1, hsub h.2⟩

/-! ## Trees -/

mutual

/-- The names of each letrec are distinct. -/
def Snode.DistinctNames : Snode → Prop
  | .application l r _ => l.DistinctNames ∧ r.DistinctNames
  | .lambda _ b => b.DistinctNames
  | .letrec bs b => bs.names.Nodup ∧ bs.DistinctNames ∧ b.DistinctNames
  | _ => True

def Letrec.DistinctNames : Letrec → Prop
  | .done => True
  | .bind _ v _ next => v.DistinctNames ∧ next.DistinctNames

end

mutual

theorem distinctNames_unmark : ∀ e : Snode, e.unmark.DistinctNames ↔ e.DistinctNames
  | .application l r s => by
    simp [Snode.unmark, Snode.DistinctNames, distinctNames_unmark l, distinctNames_unmark r]
  | .lambda x b => by simp [Snode.unmark, Snode.DistinctNames, distinctNames_unmark b]
  | .letrec bs b => by
    simp [Snode.unmark, Snode.DistinctNames, unmark_names, Letrec.distinctNames_unmark bs,
      distinctNames_unmark b]
  | .builtin _ => Iff.rfl
  | .symbol _ => Iff.rfl
  | .scref _ => Iff.rfl
  | .nil => Iff.rfl
  | .number _ => Iff.rfl
  | .string _ => Iff.rfl

theorem Letrec.distinctNames_unmark : ∀ bs : Letrec, bs.unmark.DistinctNames ↔ bs.DistinctNames
  | .done => Iff.rfl
  | .bind x v s next => by
    simp [Letrec.unmark, Letrec.DistinctNames, Compiler.distinctNames_unmark v,
      Letrec.distinctNames_unmark next]

end

theorem Snode.DistinctNames.congr {c c' : Snode} (h : c.DistinctNames) (hc : c'.unmark = c.unmark) :
    c'.DistinctNames := by
  rw [← distinctNames_unmark, hc, distinctNames_unmark]
  exact h

theorem spine_unmark (c : Snode) : c.unmark.spine = (c.spine.1.unmark, c.spine.2) := by
  fun_induction Snode.spine c with
  | case1 l r s ih => simp [Snode.unmark, Snode.spine, ih]
  | case2 c hc => cases c <;> first | rfl | exact absurd rfl (hc _ _ _)

theorem head_unmark (c : Snode) : c.unmark.head = c.head := by
  cases c <;> rfl

theorem saturated_congr {scs : List Scomb} {c c' : Snode} (hc : c'.unmark = c.unmark) :
    saturated scs c' = saturated scs c := by
  have h : ∀ c : Snode, saturated scs c.unmark = saturated scs c := by
    intro c
    unfold saturated
    rw [spine_unmark]
    simp only [head_unmark]
  rw [← h c', hc, h c]

/-! ## The parts of the analyser -/

variable {D : Type} {P : Prims D} {scs scs' : List Scomb}

/-- A call asks for the arguments that the function is strict in. -/
theorem FlagsSound.mem (hflags : FlagsSound P scs scs') {j : Nat} {m : Loc} {ls : List Loc}
    {Γ Δ : Store D} {v : Whnf D} {F : Set Loc} : ∀ {h : Head}, funStrictin scs' h j = true →
    h.arity scs = some ls.length → ls[j]? = some m → Runs P scs Γ (.apply h ls) Δ v F → m ∈ F
  | .sc i, hj, hlen, hm, hr => hflags i j hj hlen hr m hm
  | .bif _, hj, hlen, hm, hr => hr.prim_mem (of_decide_eq_true hj) hlen hm

/-- A program that keeps marks right, and that collects variables that a tree demands. -/
def SoundBy (P : Prims D) (scs : List Scomb) (f : Snode → StrictM Snode) : Prop :=
  ∀ c c' st st', f c st = some (c', st') → c.MarksSound P scs → c.DistinctNames →
    c'.MarksSound P scs ∧ ∀ x ∈ st'.1, x ∈ st.1 ∨ Demands P scs c x

section Parts

variable {rec : Snode → StrictM Snode} (hrec : GrowsBy rec) (hsound : SoundBy P scs rec)

include hsound

theorem checkArg_sound {E : String → Prop} {b s s' : Bool} {r r' : Snode}
    {st st' : List String × Bool} (h : checkArg rec b r s st = some ((r', s'), st'))
    (hm : r.MarksSound P scs) (hd : r.DistinctNames)
    (hE : b = true → ∀ x, Demands P scs r x → E x) :
    r'.MarksSound P scs ∧ ∀ x ∈ st'.1, x ∈ st.1 ∨ E x := by
  unfold checkArg at h
  split at h
  · rename_i hb
    obtain ⟨_, st1, h1, h⟩ := bind_eq_some.mp h
    cases h1
    obtain ⟨r1, st2, h2, h⟩ := bind_eq_some.mp h
    cases h
    obtain ⟨h3, h4⟩ := hsound _ _ _ _ h2 hm hd
    exact ⟨h3, fun x hx => (h4 x hx).imp id (hE hb x)⟩
  · cases h
    exact ⟨hm, fun x hx => Or.inl hx⟩

/-- The arguments of a call, in a context that demands what the strict ones demand. -/
theorem checkArgs_sound {E : String → Prop} {strictin : Nat → Bool} :
    ∀ {c c' : Snode} {st st' : List String × Bool},
      checkArgs rec strictin c st = some (c', st') → c.MarksSound P scs → c.DistinctNames →
      (∀ j a x, c.args[j]? = some a → strictin j = true → Demands P scs a x → E x) →
      c'.MarksSound P scs ∧ ∀ x ∈ st'.1, x ∈ st.1 ∨ E x
  | .application l r s, c', st, st', h, hm, hd, hE => by
    unfold checkArgs at h
    obtain ⟨a, st1, h1, h⟩ := bind_eq_some.mp h
    obtain ⟨l', st2, h2, h⟩ := bind_eq_some.mp h
    cases h
    obtain ⟨hr, hu1⟩ := checkArg_sound hsound h1 hm.2 hd.2 (fun hb x hx => by
      refine hE l.spine.2 r x ?_ hb hx
      rw [Snode.args, ← length_args, List.getElem?_concat_length])
    obtain ⟨hl, hu2⟩ := checkArgs_sound h2 hm.1 hd.1 (fun j a x ha hj hx => by
      refine hE j a x ?_ hj hx
      rw [Snode.args, List.getElem?_append_left (List.getElem?_eq_some_iff.mp ha).1, ha])
    refine ⟨⟨hl, hr⟩, fun x hx => ?_⟩
    rcases hu2 x hx with hx | hx
    · exact hu1 x hx
    · exact Or.inr hx
  | .lambda _ _, _, _, _, h, hm, _, _ => by cases h; exact ⟨hm, fun x hx => Or.inl hx⟩
  | .builtin _, _, _, _, h, hm, _, _ => by cases h; exact ⟨hm, fun x hx => Or.inl hx⟩
  | .symbol _, _, _, _, h, hm, _, _ => by cases h; exact ⟨hm, fun x hx => Or.inl hx⟩
  | .letrec _ _, _, _, _, h, hm, _, _ => by cases h; exact ⟨hm, fun x hx => Or.inl hx⟩
  | .scref _, _, _, _, h, hm, _, _ => by cases h; exact ⟨hm, fun x hx => Or.inl hx⟩
  | .nil, _, _, _, h, hm, _, _ => by cases h; exact ⟨hm, fun x hx => Or.inl hx⟩
  | .number _, _, _, _, h, hm, _, _ => by cases h; exact ⟨hm, fun x hx => Or.inl hx⟩
  | .string _, _, _, _, h, hm, _, _ => by cases h; exact ⟨hm, fun x hx => Or.inl hx⟩

theorem checkIf_sound {c c' : Snode} {st st' : List String × Bool}
    (hs : saturated scs c = some (.bif .if_)) (h : checkIf rec c st = some (c', st'))
    (hm : c.MarksSound P scs) (hd : c.DistinctNames) :
    c'.MarksSound P scs ∧ ∀ x ∈ st'.1, x ∈ st.1 ∨ Demands P scs c x := by
  unfold checkIf at h
  split at h
  · rename_i l t0 s f0 s'
    obtain ⟨t, st1, h1, h⟩ := bind_eq_some.mp h
    obtain ⟨f, st2, h2, h⟩ := bind_eq_some.mp h
    obtain ⟨_, _, h3, h⟩ := bind_eq_some.mp h
    cases h3
    cases h
    obtain ⟨ch1, ht, rfl⟩ := fresh_eq_some.mp h1
    obtain ⟨ch2, hf, rfl⟩ := fresh_eq_some.mp h2
    obtain ⟨hmt, hut⟩ := hsound _ _ _ _ ht hm.1.2 hd.1.2
    obtain ⟨hmf, huf⟩ := hsound _ _ _ _ hf hm.2 hd.2
    refine ⟨⟨⟨hm.1.1, hmt⟩, hmf⟩, fun x hx => ?_⟩
    rcases mem_addUnion hx with hx | ⟨hx1, hx2⟩
    · exact Or.inl hx
    · right
      have hdt : Demands P scs t0 x := (hut x hx1).resolve_left List.not_mem_nil
      have hdf : Demands P scs f0 x := (huf x hx2).resolve_left List.not_mem_nil
      exact demands_if hs hdt hdf
  · cases h
    exact ⟨hm, fun x hx => Or.inl hx⟩

theorem checkSeq_sound {c c' : Snode} {st st' : List String × Bool}
    (h : checkSeq rec c st = some (c', st')) (hm : c.MarksSound P scs) (hd : c.DistinctNames) :
    c'.MarksSound P scs ∧ ∀ x ∈ st'.1, x ∈ st.1 ∨ Demands P scs c x := by
  unfold checkSeq at h
  split at h
  · obtain ⟨a, st1, h1, h⟩ := bind_eq_some.mp h
    cases h
    obtain ⟨ch1, ha, rfl⟩ := fresh_eq_some.mp h1
    exact ⟨⟨hm.1, (hsound _ _ _ _ ha hm.2 hd.2).1⟩, fun x hx => Or.inl hx⟩
  · cases h
    exact ⟨hm, fun x hx => Or.inl hx⟩

theorem checkLeft_sound : SoundBy P scs (checkLeft rec) := by
  intro c c' st st' h hm hd
  unfold checkLeft at h
  split at h
  · rename_i l r s
    obtain ⟨l', st1, h1, h⟩ := bind_eq_some.mp h
    cases h
    obtain ⟨hml, hul⟩ := hsound _ _ _ _ h1 hm.1 hd.1
    exact ⟨⟨hml, hm.2⟩, fun x hx => (hul x hx).imp id (fun hx => hx.application r s)⟩
  · cases h
    exact ⟨hm, fun x hx => Or.inl hx⟩

include hrec

/-- A call with all its arguments asks for those that the function is strict in. -/
theorem checkCall_sound {h : Head} {l r c' : Snode} {s : Bool} {st st' : List String × Bool}
    (hflags : FlagsSound P scs scs') (hs : saturated scs (.application l r s) = some h)
    (hc : checkCall rec scs' h (.application l r s) st = some (c', st'))
    (hm : (Snode.application l r s).MarksSound P scs)
    (hd : (Snode.application l r s).DistinctNames) :
    c'.MarksSound P scs ∧ ∀ x ∈ st'.1, x ∈ st.1 ∨ Demands P scs (.application l r s) x := by
  unfold checkCall at hc
  obtain ⟨c1, st1, h1, hc⟩ := bind_eq_some.mp hc
  have hu := (checkArgs_grows hrec h1).unmark
  obtain ⟨hm1, hu1⟩ := checkArgs_sound hsound h1 hm hd (fun j a x ha hj hx => by
    exact demands_arg hs (fun hlen hr _ hm => hflags.mem hj hlen hm hr) ha hx)
  have hrest : ∀ x ∈ st'.1, x ∈ st1.1 ∨ Demands P scs c1 x →
      x ∈ st.1 ∨ Demands P scs (.application l r s) x := by
    intro x _ hx
    rcases hx with hx | hx
    · exact hu1 x hx
    · exact Or.inr (hx.congr hu.symm)
  split at hc
  · obtain ⟨hm2, hu2⟩ := checkIf_sound hsound ((saturated_congr hu).trans hs) hc hm1 (hd.congr hu)
    exact ⟨hm2, fun x hx => hrest x hx (hu2 x hx)⟩
  · obtain ⟨hm2, hu2⟩ := checkSeq_sound hsound hc hm1 (hd.congr hu)
    exact ⟨hm2, fun x hx => hrest x hx (hu2 x hx)⟩
  · cases hc
    exact ⟨hm1, hu1⟩

theorem checkApplication_sound {l r c' : Snode} {s : Bool} {st st' : List String × Bool}
    (hflags : FlagsSound P scs scs')
    (hsat : saturated scs' (.application l r s) = saturated scs (.application l r s))
    (hc : checkApplication rec scs' (.application l r s) st = some (c', st'))
    (hm : (Snode.application l r s).MarksSound P scs)
    (hd : (Snode.application l r s).DistinctNames) :
    c'.MarksSound P scs ∧ ∀ x ∈ st'.1, x ∈ st.1 ∨ Demands P scs (.application l r s) x := by
  unfold checkApplication at hc
  rw [hsat] at hc
  cases hs : saturated scs (.application l r s) with
  | none =>
    rw [hs] at hc
    exact checkLeft_sound hsound _ _ _ _ hc hm hd
  | some h =>
    rw [hs] at hc
    obtain ⟨c1, st1, h1, hc⟩ := bind_eq_some.mp hc
    have hu := (checkCall_grows hrec _ _ _ _ _ _ h1).unmark
    obtain ⟨hm1, hu1⟩ := checkCall_sound hrec hsound hflags hs h1 hm hd
    obtain ⟨hm2, hu2⟩ := checkLeft_sound hsound _ _ _ _ hc hm1 (hd.congr hu)
    refine ⟨hm2, fun x hx => ?_⟩
    rcases hu2 x hx with hx | hx
    · exact hu1 x hx
    · exact Or.inr (hx.congr hu.symm)

omit hrec

/-- The bindings `ds` are some of those of the letrec `bs`, `b`. What the marked ones demand is
demanded by the letrec. -/
theorem checkBindings_sound {bs : Letrec} {b : Snode} (hnd : bs.names.Nodup) :
    ∀ {ds ds' : Letrec} {st st' : List String × Bool},
      checkBindings rec ds st = some (ds', st') → (∀ y e, ds.binds y e → bs.binds y e) →
      (∀ y ∈ ds.marked, DemandsIn P scs bs b y) → ds.MarksSound P scs → ds.DistinctNames →
      ds'.MarksSound P scs ∧ ds'.marked = ds.marked ∧
        ∀ x ∈ st'.1, x ∈ st.1 ∨ DemandsIn P scs bs b x
  | .done, _, _, _, h, _, _, _, _ => by
    cases h
    exact ⟨trivial, rfl, fun x hx => Or.inl hx⟩
  | .bind x v true next, _, _, _, h, hb, hy, hm, hd => by
    obtain ⟨v', st1, h1, h⟩ := bind_eq_some.mp h
    obtain ⟨next', st2, h2, h⟩ := bind_eq_some.mp h
    cases h
    obtain ⟨hmv, huv⟩ := hsound _ _ _ _ h1 hm.1 hd.1
    obtain ⟨hmn, hmk, hun⟩ := checkBindings_sound hnd h2 (fun y e he => hb y e (Or.inr he))
      (fun y hy' => hy y (List.mem_cons_of_mem _ hy')) hm.2 hd.2
    refine ⟨⟨hmv, hmn⟩, by simp only [Letrec.marked, hmk], fun z hz => ?_⟩
    rcases hun z hz with hz | hz
    · exact (huv z hz).imp id (DemandsIn.binding hnd (hy x List.mem_cons_self)
        (hb x v (Or.inl ⟨rfl, rfl⟩)))
    · exact Or.inr hz
  | .bind x v false next, _, _, _, h, hb, hy, hm, hd => by
    obtain ⟨next', st2, h2, h⟩ := bind_eq_some.mp h
    cases h
    obtain ⟨hmn, hmk, hun⟩ := checkBindings_sound hnd h2 (fun y e he => hb y e (Or.inr he)) hy
      hm.2 hd.2
    exact ⟨⟨hm.1, hmn⟩, by simp only [Letrec.marked, hmk], hun⟩

omit hsound in
theorem mem_marked_markUsed {used : List String} {x : String} : ∀ {bs : Letrec},
    x ∈ (markUsed used bs).marked → x ∈ bs.marked ∨ x ∈ used
  | .done, h => by cases h
  | .bind y v s next, h => by
    simp only [markUsed, Letrec.marked] at h ⊢
    split at h
    · rename_i hs
      rcases List.mem_cons.mp h with rfl | h
      · cases s with
        | true => exact Or.inl List.mem_cons_self
        | false => exact Or.inr (by simpa using hs)
      · refine (mem_marked_markUsed h).imp (fun h1 => ?_) id
        split
        · exact List.mem_cons_of_mem _ h1
        · exact h1
    · rename_i hs
      have : s = false := by
        cases s
        · rfl
        · simp at hs
      subst this
      exact mem_marked_markUsed h

omit hsound in
theorem markUsed_marksSound {used : List String} : ∀ {bs : Letrec}, bs.MarksSound P scs →
    (markUsed used bs).MarksSound P scs
  | .done, _ => trivial
  | .bind _ _ _ _, h => ⟨h.1, markUsed_marksSound h.2⟩

omit hsound in
theorem Letrec.DistinctNames.congr {bs bs' : Letrec} (h : bs.DistinctNames)
    (hb : bs'.unmark = bs.unmark) : bs'.DistinctNames := by
  rw [← Letrec.distinctNames_unmark, hb, Letrec.distinctNames_unmark]
  exact h

omit hsound in
theorem names_congr {bs bs' : Letrec} (hb : bs'.unmark = bs.unmark) : bs'.names = bs.names := by
  rw [← unmark_names, hb, unmark_names]

include hrec

theorem checkLetrec_sound : ∀ (k : Nat) {bs : Letrec} {b c' : Snode} {st st' : List String × Bool},
    checkLetrec rec k bs b st = some (c', st') → bs.names.Nodup → bs.DistinctNames →
    b.DistinctNames → (Snode.letrec bs b).MarksSound P scs →
    (∀ x ∈ st.1, DemandsIn P scs bs b x) →
    c'.MarksSound P scs ∧ ∀ x ∈ st'.1, DemandsIn P scs bs b x
  | 0, _, _, _, _, _, h, _, _, _, _, _ => by cases h
  | k + 1, bs, b, c', st, st', h, hnd, hdbs, hdb, hm, hst => by
    unfold checkLetrec at h
    obtain ⟨bs1, st1, h1, h⟩ := bind_eq_some.mp h
    obtain ⟨b1, st2, h2, h⟩ := bind_eq_some.mp h
    obtain ⟨_, _, h3, h⟩ := bind_eq_some.mp h
    cases h3
    obtain ⟨hm1, hmk, hu1⟩ := checkBindings_sound hsound hnd h1 (fun _ _ he => he) hm.1 hm.2.1 hdbs
    obtain ⟨hm2, hu2⟩ := hsound _ _ _ _ h2 hm.2.2 hdb
    have hb1 := (checkBindings_grows hrec h1).unmark
    have hb2 := (hrec _ _ _ _ h2).unmark
    have hused : ∀ x ∈ st2.1, DemandsIn P scs bs b x := by
      intro x hx
      rcases hu2 x hx with hx | hx
      · exact (hu1 x hx).elim (hst x) id
      · exact hx.body bs
    split at h
    · cases h
      refine ⟨⟨fun x hx => ?_, hm1, hm2⟩, hused⟩
      exact (hm.1 x (hmk ▸ hx)).congr hb1 hb2
    · obtain ⟨_, st5, h5, h⟩ := bind_eq_some.mp h
      cases h5
      -- the next time round, with the new marks: the letrec is the same without them
      have hb3 : (markUsed st2.1 bs1).unmark = bs.unmark := by rw [markUsed_unmark, hb1]
      have hmark : ∀ x ∈ (markUsed st2.1 bs1).marked, DemandsIn P scs bs b x := by
        intro x hx
        rcases mem_marked_markUsed hx with hx | hx
        · exact hm.1 x (hmk ▸ hx)
        · exact hused x hx
      obtain ⟨hm3, hu3⟩ := checkLetrec_sound k h (by rw [names_congr hb3]; exact hnd)
        (hdbs.congr hb3) (hdb.congr hb2)
        ⟨fun x hx => (hmark x hx).congr hb3 hb2, markUsed_marksSound hm1, hm2⟩
        (fun x hx => (hused x hx).congr hb3 hb2)
      exact ⟨hm3, fun x hx => (hu3 x hx).congr hb3.symm hb2.symm⟩

end Parts

/-! ## Supercombinators -/

theorem arity_congr (h : tableUnmark scs' = tableUnmark scs) (hd : Head) :
    hd.arity scs' = hd.arity scs := by
  match hd with
  | .sc i =>
    have h1 := congrArg (fun t => (t[i]?).map Scomb.nargs) h
    simp only [tableUnmark, List.getElem?_map, Option.map_map] at h1
    exact h1
  | .bif b => rfl

theorem saturated_table (h : tableUnmark scs' = tableUnmark scs) (c : Snode) :
    saturated scs' c = saturated scs c := by
  unfold saturated
  simp only [arity_congr h]

theorem checkStrictnessR_sound (h : tableUnmark scs' = tableUnmark scs)
    (hflags : FlagsSound P scs scs') : ∀ d, SoundBy P scs (checkStrictnessR scs' d)
  | 0 => fun _ _ _ _ h => by cases h
  | d + 1 => by
    have ih := checkStrictnessR_sound h hflags d
    have hg := checkStrictnessR_grows scs' d
    intro c c' st st' hc hm hd
    cases c with
    | letrec bs b =>
      obtain ⟨r, st1, h1, hc⟩ := bind_eq_some.mp hc
      obtain ⟨_, _, h2, hc⟩ := bind_eq_some.mp hc
      cases h2
      cases hc
      obtain ⟨ch1, hr, rfl⟩ := fresh_eq_some.mp h1
      obtain ⟨hm1, hu1⟩ := checkLetrec_sound hg ih _ hr hd.1 hd.2.1 hd.2.2 hm
        (fun x hx => absurd hx List.not_mem_nil)
      refine ⟨hm1, fun x hx => (mem_addVars _ hx).imp id (fun hx => ?_)⟩
      rw [List.mem_filter] at hx
      exact (hu1 x hx.1).letrec (of_decide_eq_true hx.2)
    | application l r s =>
      exact checkApplication_sound hg ih hflags (saturated_table h _) hc hm hd
    | symbol x =>
      obtain ⟨_, _, h2, hc⟩ := bind_eq_some.mp hc
      cases h2
      cases hc
      refine ⟨trivial, fun y hy => (mem_addVar hy).imp id (fun he => ?_)⟩
      rw [he]
      exact demands_symbol x
    | lambda x b => cases hc
    | builtin b => cases hc; exact ⟨trivial, fun x hx => Or.inl hx⟩
    | scref i => cases hc; exact ⟨trivial, fun x hx => Or.inl hx⟩
    | nil => cases hc; exact ⟨trivial, fun x hx => Or.inl hx⟩
    | number d => cases hc; exact ⟨trivial, fun x hx => Or.inl hx⟩
    | string x => cases hc; exact ⟨trivial, fun x hx => Or.inl hx⟩

/-- The flags and marks of the table `scs'` are right about the program `scs`, of which it is the
table. -/
structure TableSound (P : Prims D) (scs scs' : List Scomb) : Prop where
  same : tableUnmark scs' = tableUnmark scs
  flags : FlagsSound P scs scs'
  marks : ∀ sc ∈ scs', sc.body.MarksSound P scs

/-- The names of the arguments, and of each letrec, are distinct. -/
def NamesDistinct (scs : List Scomb) : Prop :=
  ∀ sc ∈ scs, sc.argnames.Nodup ∧ sc.body.DistinctNames

/-- The supercombinators of the program and of its table are the same without marks and flags. -/
theorem unmark_getElem? (h : tableUnmark scs' = tableUnmark scs) {i : Nat} {sc : Scomb}
    (hi : scs'[i]? = some sc) : ∃ sc0, scs[i]? = some sc0 ∧ sc.unmark = sc0.unmark := by
  have h1 := congrArg (fun t => t[i]?) h
  simp only [tableUnmark, List.getElem?_map, hi, Option.map_some] at h1
  cases h2 : scs[i]? with
  | none => rw [h2] at h1; cases h1
  | some sc0 =>
    rw [h2, Option.map_some, Option.some.injEq] at h1
    exact ⟨sc0, rfl, h1⟩

/-- An argument that the body demands is one that the calls ask for. -/
theorem strictIn_of_demands {i a : Nat} {sc : Scomb} {x : String} (hi : scs[i]? = some sc)
    (hnd : sc.argnames.Nodup) (ha : sc.argnames[a]? = some x) (hx : Demands P scs sc.body x) :
    StrictIn P scs i a := by
  intro Γ Δ args v F hlen hr l hl
  cases hr with
  | lacking hk hlt =>
    rw [hlen, Option.some.injEq] at hk
    omega
  | call hi' hlen' hr =>
    rw [hi] at hi'
    cases hi'
    refine hx hr l ?_
    rw [bind_get _ _ _ hnd a x ha hlen']
    exact hl

theorem newFlags_getD {sc : Scomb} {used : List String} {a : Nat}
    (h : (newFlags sc used).getD a false = true) :
    sc.flags.getD a false = true ∨ ∃ x, sc.argnames[a]? = some x ∧ x ∈ used := by
  rw [List.getD_eq_getElem?_getD, newFlags, List.getElem?_zipWith] at h
  cases hf : sc.flags[a]? with
  | none => simp [hf] at h
  | some s =>
    cases hx : sc.argnames[a]? with
    | none => simp [hf, hx] at h
    | some x =>
      simp only [hf, hx, Option.getD_some, Bool.or_eq_true, List.contains_iff_mem] at h
      rw [List.getD_eq_getElem?_getD, hf]
      exact h.imp id (fun h => ⟨x, rfl, h⟩)

theorem checkStrictness_sound {i : Nat} {ch : Bool} {r : List Scomb × Bool}
    (hnames : NamesDistinct scs) (hs : TableSound P scs scs') (hr : Ready scs')
    (h : checkStrictness scs' i ch = some r) : TableSound P scs r.1 := by
  have hg := (checkStrictness_grows hr h).1
  obtain ⟨sc, hi, h⟩ := Option.bind_eq_some_iff.mp h
  obtain ⟨⟨body, used, ch1⟩, hb, h⟩ := Option.bind_eq_some_iff.mp h
  cases h
  obtain ⟨sc0, hi0, hsc⟩ := unmark_getElem? hs.same hi
  obtain ⟨hargs, hdist⟩ := hnames sc0 (List.mem_of_getElem? hi0)
  have hbody : sc.unmark.body = sc0.unmark.body := by rw [hsc]
  have hargnames : sc.unmark.argnames = sc0.unmark.argnames := by rw [hsc]
  obtain ⟨hm, hu⟩ := checkStrictnessR_sound hs.same hs.flags _ _ _ _ _ hb
    (hs.marks sc (List.mem_of_getElem? hi)) (hdist.congr hbody)
  refine ⟨hg.unmark.trans hs.same, fun j a hj => ?_, fun x hx => ?_⟩
  · by_cases hij : i = j
    · subst hij
      have hlt : i < scs'.length := (List.getElem?_eq_some_iff.mp hi).1
      simp only [funStrictin, List.getElem?_set_self hlt, Option.map_some, Option.getD_some,
        Scomb.flags] at hj
      rcases newFlags_getD hj with hj | ⟨x, hax, hx⟩
      · refine hs.flags i a ?_
        simp only [funStrictin, hi, Option.map_some, Option.getD_some]
        exact hj
      · have hx' : Demands P scs sc.body x := (hu x hx).resolve_left List.not_mem_nil
        exact strictIn_of_demands hi0 hargs (hargnames ▸ hax) (hx'.congr hbody.symm)
    · simp only [funStrictin, List.getElem?_set_ne hij] at hj
      exact hs.flags j a hj
  · rcases List.mem_or_eq_of_mem_set hx with hx | rfl
    · exact hs.marks x hx
    · exact hm

theorem strictnessRound_sound : ∀ (k i : Nat) {scs' : List Scomb} {ch : Bool}
    {r : List Scomb × Bool}, NamesDistinct scs → TableSound P scs scs' → Ready scs' →
    strictnessRound k i scs' ch = some r → TableSound P scs r.1
  | 0, _, _, _, _, _, hs, _, h => by
    cases h
    exact hs
  | k + 1, i, scs', ch, r, hnames, hs, hr, h => by
    obtain ⟨⟨scs1, ch1⟩, h1, h⟩ := Option.bind_eq_some_iff.mp h
    exact strictnessRound_sound k (i + 1) hnames (checkStrictness_sound hnames hs hr h1)
      (checkStrictness_grows hr h1).2 h

theorem strictnessLoop_sound : ∀ (k : Nat) {scs' t : List Scomb}, NamesDistinct scs →
    TableSound P scs scs' → Ready scs' → strictnessLoop k scs' = some t → TableSound P scs t
  | 0, _, _, _, _, _, h => by cases h
  | k + 1, scs', t, hnames, hs, hr, h => by
    obtain ⟨⟨scs1, ch1⟩, h1, h⟩ := Option.bind_eq_some_iff.mp h
    have hs1 := strictnessRound_sound _ _ hnames hs hr h1
    have hr1 := (strictnessRound_grows _ _ hr h1).2
    simp only at h
    split at h
    · exact strictnessLoop_sound k hnames hs1 hr1 h
    · cases h
      exact hs1

/-! ## Programs -/

/-- A supercombinator without annotations, as the analyser gets it: the lambdas are lifted, the
variables are renamed, no flag is set, and nothing is marked. -/
structure Scomb.Plain (sc : Scomb) : Prop where
  lambdaFree : sc.body.lambdaFree = true
  argnames : sc.argnames.Nodup
  names : sc.body.DistinctNames
  flags : sc.flags = List.replicate sc.nargs false
  marks : sc.body.unmark = sc.body

mutual

theorem marked_unmark : ∀ bs : Letrec, bs.unmark.marked = []
  | .done => rfl
  | .bind x v s next => by simp [Letrec.unmark, Letrec.marked, marked_unmark next]

theorem marksSound_unmark : ∀ e : Snode, e.unmark.MarksSound P scs
  | .application l r s => ⟨marksSound_unmark l, marksSound_unmark r⟩
  | .lambda x b => marksSound_unmark b
  | .letrec bs b => by
    refine ⟨fun x hx => ?_, Letrec.marksSound_unmark bs, marksSound_unmark b⟩
    rw [marked_unmark] at hx
    cases hx
  | .builtin _ => trivial
  | .symbol _ => trivial
  | .scref _ => trivial
  | .nil => trivial
  | .number _ => trivial
  | .string _ => trivial

theorem Letrec.marksSound_unmark : ∀ bs : Letrec, bs.unmark.MarksSound P scs
  | .done => trivial
  | .bind _ v _ next => ⟨Compiler.marksSound_unmark v, Letrec.marksSound_unmark next⟩

end

theorem initFlags_sound (h : ∀ sc ∈ scs, sc.Plain) : TableSound P scs (initFlags scs) := by
  refine ⟨?_, fun i a ha => ?_, fun sc hsc => ?_⟩
  · simp only [initFlags, tableUnmark, List.map_map]
    exact List.map_congr_left (fun sc _ => rfl)
  · simp only [funStrictin, initFlags, List.getElem?_map, Option.map_map] at ha
    cases hi : scs[i]? with
    | none => simp [hi] at ha
    | some sc =>
      simp only [hi, Option.map_some, Function.comp_apply, Option.getD_some, Scomb.flags] at ha
      have hf := (h sc (List.mem_of_getElem? hi)).flags
      rw [Scomb.flags] at hf
      rw [hf, List.getD_eq_getElem?_getD, List.getElem?_replicate] at ha
      split at ha <;> simp at ha
  · obtain ⟨sc0, hsc0, rfl⟩ := List.mem_map.mp hsc
    have hm : sc0.body.unmark.MarksSound P scs := marksSound_unmark sc0.body
    rw [(h sc0 hsc0).marks] at hm
    exact hm

theorem initFlags_ready (h : ∀ sc ∈ scs, sc.Plain) : Ready (initFlags scs) := by
  intro sc hsc
  obtain ⟨sc0, hsc0, rfl⟩ := List.mem_map.mp hsc
  refine ⟨⟨_, rfl, ?_⟩, (h sc0 hsc0).lambdaFree⟩
  rw [(h sc0 hsc0).flags, List.length_replicate]
  rfl

theorem initFlags_unset : tableUnset (initFlags scs) = tableUnset scs := by
  simp only [tableUnset, initFlags, List.map_map]
  exact congrArg List.sum (List.map_congr_left (fun sc _ => rfl))

mutual

theorem Snode.MarksSound.letrec_mem {p : Letrec × Snode} : ∀ {e : Snode}, e.MarksSound P scs →
    e.DistinctNames → p ∈ e.letrecs → p.1.names.Nodup ∧ ∀ x ∈ p.1.marked, DemandsIn P scs p.1 p.2 x
  | .application l r s, h, hd, hp => by
    rcases List.mem_append.mp hp with hp | hp
    · exact h.1.letrec_mem hd.1 hp
    · exact h.2.letrec_mem hd.2 hp
  | .lambda x b, h, hd, hp => Snode.MarksSound.letrec_mem (e := b) h hd hp
  | .letrec bs b, h, hd, hp => by
    rcases List.mem_cons.mp hp with rfl | hp
    · exact ⟨hd.1, h.1⟩
    · rcases List.mem_append.mp hp with hp | hp
      · exact h.2.1.letrec_mem hd.2.1 hp
      · exact h.2.2.letrec_mem hd.2.2 hp

theorem Letrec.MarksSound.letrec_mem {p : Letrec × Snode} : ∀ {bs : Letrec}, bs.MarksSound P scs →
    bs.DistinctNames → p ∈ bs.letrecs → p.1.names.Nodup ∧ ∀ x ∈ p.1.marked, DemandsIn P scs p.1 p.2 x
  | .bind x v s next, h, hd, hp => by
    rcases List.mem_append.mp hp with hp | hp
    · exact h.1.letrec_mem hd.1 hp
    · exact h.2.letrec_mem hd.2 hp

end

/-- A binding that is demanded is evaluated with its letrec. -/
theorem DemandsIn.evaluated {bs : Letrec} {b e : Snode} {x : String} (h : DemandsIn P scs bs b x)
    (hnd : bs.names.Nodup) (hb : bs.binds x e) {Γ Δ : Store D} {ρ : Locals} {v : Whnf D}
    {F : Set Loc} (hr : Runs P scs Γ (.eval ρ (Snode.letrec bs b).unmark) Δ v F) :
    ∃ ls, Evaluated P scs (ρ.bind bs.names ls) e.unmark F := by
  simp only [Snode.unmark] at hr
  cases hr with
  | @letrec _ _ _ _ _ ls _ _ hlen hls hfresh hr =>
    rw [unmark_names] at hlen hr
    obtain ⟨l, hl, hs⟩ := suspend_binds bs ls Γ ρ (ρ.bind bs.names ls) hnd hls hlen hb
    exact ⟨ls, hr.forces hs (h hlen hls hfresh hr l hl)⟩

/-- An argument that the function is strict in is evaluated with the call. -/
theorem StrictIn.evaluated {i a : Nat} {l r e : Snode} {s : Bool} (h : StrictIn P scs i a)
    (hs : saturated scs (.application l r s) = some (.sc i))
    (ha : (Snode.application l r s).args[a]? = some e) {Γ Δ : Store D} {ρ : Locals} {v : Whnf D}
    {F : Set Loc} (hr : Runs P scs Γ (.eval ρ (Snode.application l r s).unmark) Δ v F) :
    Evaluated P scs ρ e.unmark F := by
  obtain ⟨Γ', ls, G, hsus, hlen, hap, hsub⟩ := hr.saturated hs
  obtain ⟨n, hn, hsn⟩ := hsus.get ha
  exact (hap.forces hsn (h hlen hap n hn)).mono hsub

/-- The analyser ends, with a table that a further iteration leaves as it is, and is right: a call
that reaches weak head normal form evaluates the arguments with a flag, and a letrec that does
evaluates the bindings with a mark. -/
theorem strictness_analysis_sound (P : Prims D) (scs : List Scomb) (h : ∀ sc ∈ scs, sc.Plain) :
    ∃ scs', (∀ k, tableUnset scs < k → strictnessAnalysis k scs = some scs') ∧
      strictnessRound scs'.length 0 scs' false = some (scs', false) ∧
      tableUnmark scs' = tableUnmark scs ∧
      (∀ i a, funStrictin scs' (.sc i) a = true → StrictIn P scs i a ∧
        ∀ l r e s, saturated scs (.application l r s) = some (.sc i) →
          (Snode.application l r s).args[a]? = some e → ∀ Γ Δ ρ v F,
          Runs P scs Γ (.eval ρ (Snode.application l r s).unmark) Δ v F →
          Evaluated P scs ρ e.unmark F) ∧
      ∀ sc ∈ scs', ∀ bs b, (bs, b) ∈ sc.body.letrecs → ∀ x ∈ bs.marked, DemandsIn P scs bs b x ∧
        ∀ e, bs.binds x e → ∀ Γ Δ ρ v F, Runs P scs Γ (.eval ρ (Snode.letrec bs b).unmark) Δ v F →
          ∃ ls, Evaluated P scs (ρ.bind bs.names ls) e.unmark F := by
  have hnames : NamesDistinct scs := fun sc hsc => ⟨(h sc hsc).argnames, (h sc hsc).names⟩
  obtain ⟨scs', hloop, -, hfix⟩ := strictnessLoop_ends (tableUnset scs) (initFlags_ready h)
    initFlags_unset.le
  have hs : TableSound P scs scs' := strictnessLoop_sound _ hnames (initFlags_sound h)
    (initFlags_ready h) (hloop _ (Nat.lt_succ_self _))
  refine ⟨scs', hloop, hfix, hs.same, fun i a ha => ?_, fun sc hsc bs b hp x hx => ?_⟩
  · refine ⟨hs.flags i a ha, fun l r e s hsat he Γ Δ ρ v F hr => ?_⟩
    exact StrictIn.evaluated (hs.flags i a ha) hsat he hr
  · obtain ⟨i, hi⟩ := List.getElem?_of_mem hsc
    obtain ⟨sc0, hi0, hsc0⟩ := unmark_getElem? hs.same hi
    have hbody : sc.unmark.body = sc0.unmark.body := by rw [hsc0]
    have hdist : sc.body.DistinctNames :=
      (hnames sc0 (List.mem_of_getElem? hi0)).2.congr hbody
    obtain ⟨hnd, hd⟩ := (hs.marks sc hsc).letrec_mem hdist hp
    exact ⟨hd x hx, fun e he Γ Δ ρ v F hr => (hd x hx).evaluated hnd he hr⟩

/-! ## An example -/

inductive Datum where
  | num (d : Double)
  | str (s : String)
  | nil
  | cons (head tail : Loc)

def toFloat (d : Double) : Float := Float.ofBits ⟨d⟩

def ofFloat (x : Float) : Double := x.toBits.toBitVec

/-- The arithmetic builtins, on doubles. A comparison gives 1.0 or nil. -/
def arithmetic : Bif → Double → Double → Option Datum
  | .add, x, y => some (.num (ofFloat (toFloat x + toFloat y)))
  | .subtract, x, y => some (.num (ofFloat (toFloat x - toFloat y)))
  | .multiply, x, y => some (.num (ofFloat (toFloat x * toFloat y)))
  | .eq, x, y => some (if toFloat x == toFloat y then .num (ofFloat 1) else .nil)
  | _, _, _ => none

/-- A builtin that makes a new node, or gives one that is there. -/
inductive BuiltinResult : Bif → List Loc → Store Datum → Store Datum → Loc → Prop where
  | number {b : Bif} {Γ : Store Datum} {l m r : Loc} {x y : Double} {d : Datum} :
      Γ l = some (.value (.data (.num x))) → Γ m = some (.value (.data (.num y))) →
      arithmetic b x y = some d → Γ r = none →
      BuiltinResult b [l, m] Γ (Function.update Γ r (some (.value (.data d)))) r
  | cons {Γ : Store Datum} {l m r : Loc} : Γ r = none →
      BuiltinResult .cons [l, m] Γ (Function.update Γ r (some (.value (.data (.cons l m))))) r
  | head {Γ : Store Datum} {l h t : Loc} : Γ l = some (.value (.data (.cons h t))) →
      BuiltinResult .head [l] Γ Γ h
  | tail {Γ : Store Datum} {l h t : Loc} : Γ l = some (.value (.data (.cons h t))) →
      BuiltinResult .tail [l] Γ Γ t

def datumPrims : Prims Datum where
  number := .num
  string := .str
  nil := .nil
  result := BuiltinResult
  keeps := by
    intro b args Γ Δ r l e ρ h hl
    cases h with
    | number _ _ _ hr => exact hl.update (hl.ne_of_none hr)
    | cons hr => exact hl.update (hl.ne_of_none hr)
    | head _ => exact hl
    | tail _ => exact hl

def call2 (f a b : Snode) : Snode := .application (.application f a false) b false

/-- `f x y = if (== x 0) (+ y 1) (f (- x 1) y)` and
`g x y = letrec a = (f x y) b = (+ a 1) in (* b b)`. -/
def countdown : List Scomb :=
  [⟨"f", ["x", "y"],
    .application (call2 (.builtin .if_) (call2 (.builtin .eq) (.symbol "x") (.number 0))
      (call2 (.builtin .add) (.symbol "y") (.number (ofFloat 1))))
      (call2 (.scref 0) (call2 (.builtin .subtract) (.symbol "x") (.number (ofFloat 1)))
        (.symbol "y")) false, none, false, false, none, false⟩,
   ⟨"g", ["x", "y"],
    .letrec (.bind "a" (call2 (.scref 0) (.symbol "x") (.symbol "y")) false
      (.bind "b" (call2 (.builtin .add) (.symbol "a") (.number (ofFloat 1))) false .done))
      (call2 (.builtin .multiply) (.symbol "b") (.symbol "b")), none, false, false, none, false⟩]

theorem countdown_plain : ∀ sc ∈ countdown, sc.Plain := by
  intro sc hsc
  simp only [countdown, List.mem_cons, List.not_mem_nil, or_false] at hsc
  rcases hsc with rfl | rfl
  · exact ⟨rfl, by decide, by simp [Snode.DistinctNames, call2], rfl, rfl⟩
  · exact ⟨rfl, by decide, by simp [Snode.DistinctNames, Letrec.DistinctNames, Letrec.names, call2],
      rfl, rfl⟩

theorem strictness_analysis_sound_countdown : (∀ sc ∈ countdown, sc.Plain) ∧
    ∃ scs', strictnessAnalysis 24 countdown = some scs' ∧
      scs'.map Scomb.flags = [[true, false], [true, false]] ∧
      StrictIn datumPrims countdown 0 0 ∧ StrictIn datumPrims countdown 1 0 := by
  obtain ⟨scs', hk, -, -, hf, -⟩ :=
    strictness_analysis_sound datumPrims countdown countdown_plain
  have h1 := hk 24 (by decide +kernel)
  have h2 : (strictnessAnalysis 24 countdown).map (fun t => (t.map Scomb.flags,
      funStrictin t (.sc 0) 0, funStrictin t (.sc 1) 0)) =
      some ([[true, false], [true, false]], true, true) := by decide +kernel
  rw [h1, Option.map_some, Option.some.injEq, Prod.mk.injEq, Prod.mk.injEq] at h2
  exact ⟨countdown_plain, scs', h1, h2.1, (hf 0 0 h2.2.1).1, (hf 1 0 h2.2.2).1⟩

end Compiler
end NReduce
