import NReduce.Runtime.GatherBytes

/-!
# NReduce.Runtime.Compaction

`maybe_expand_array` leaves all lists of the store as they are, and ends, if the chain of tails that
it follows settles. A cyclic list is one where it need not.
-/

namespace NReduce
namespace Runtime
namespace Lists

open Store

section

variable {s : Store} {c a₀ r a : Nat} {σ σ' : Store} {arr : Carray} {t t' : Pntr}
variable (misread : Store → Data → Nat → Pntr)

theorem consToArray_of_cons {i d j : Nat} {x y tl tl' : Pntr} (hw : s.Wf) (hp : s.Valid (.obj c i))
    (hn : s.nodes c = .cons x tl) (hq : s.target tl = .obj d j) (hd : s.nodes d = .cons y tl') :
    consToArray (.obj c i) s =
      some (s.put c s.narrays (pair (s.target x) (s.target y)) (s.target tl')) := by
  obtain ⟨hvx, hvt⟩ := hw.cons c x tl hp.1 hn
  have hvd : s.Valid (.obj d j) := hq ▸ hw.valid_target hvt
  obtain ⟨hvy, hvt'⟩ := hw.cons d y tl' hvd.1 hd
  have h1 : max s.ncells (c + 1) = s.ncells := max_eq_left hp.1
  have h2 : max s.narrays (s.narrays + 1) = s.narrays + 1 := max_eq_right (by omega)
  simp only [consToArray, hn, hw.resolve hvx, hw.resolve hvt, hq, node, hd, hw.resolve hvy,
    hw.resolve hvt', Option.bind_eq_bind, Option.bind_some,
    carrayNew_of_pos (w := .pntr) (n := 8) (by decide) (by decide), allocArray, Store.setArray,
    Store.setNode, put, h1, h2, Function.update_idem, Function.update_self, pair]
  rfl

/-- The two CONS cells of case 1 are the array and the tail that replace the first. -/
theorem keeps_pair {i d j : Nat} {x y tl tl' : Pntr} (hw : s.Wf) (hp : s.Valid (.obj c i))
    (hn : s.nodes c = .cons x tl) (hq : s.target tl = .obj d j) (hd : s.nodes d = .cons y tl') :
    Keeps s (s.put c s.narrays (pair (s.target x) (s.target y)) (s.target tl')) ∧
      s.ElementsOk (.pntrs [s.target x, s.target y]) ∧ s.Valid (s.target tl') := by
  obtain ⟨hvx, hvt⟩ := hw.cons c x tl hp.1 hn
  have hvd : s.Valid (.obj d j) := hq ▸ hw.valid_target hvt
  obtain ⟨hvy, hvt'⟩ := hw.cons d y tl' hvd.1 hd
  have hok : s.ElementsOk (.pntrs [s.target x, s.target y]) := by
    rintro _ ⟨⟩ e he
    obtain rfl | he := List.mem_cons.mp he
    · exact hw.valid_target hvx
    · obtain rfl := List.mem_singleton.mp he
      exact hw.valid_target hvy
  have hindex : ∀ k, s.Valid (.obj c k) → k = 0 := by
    intro k hk
    have h2 := hk.2
    simpa only [hn] using h2
  refine ⟨keeps_put hw ⟨hp.1.le, ?_, hw.own_new le_rfl, ?_, ?_, hw.valid_target hvt'⟩ ?_, hok,
    hw.valid_target hvt'⟩
  · intro q _ hq'
    rw [hn] at hq'
    cases hq'
  · intro k hk
    rw [hindex k hk]
    exact Nat.two_pos
  · exact ⟨(by decide : 2 ≤ maxArraySize), Nat.succ_pos 7, (by decide : 2 ≤ 8), hok,
      fun _ _ => Nat.zero_le _, fun l _ e he => by simp [pair] at he⟩
  · intro k hk
    rw [hindex k hk, denote_cons hn, ← hw.denote_target hvt, hq, denote_cons hd,
      hw.denote_target hvt']
    simp only [pair, items, List.map_cons, List.map_nil, List.drop_zero, prepend_cons, prepend_nil,
      item_target hw hvx, item_target hw hvy]

/-- What the call does: the lists stay, and only the cell `c` and the array `a` change. The items of
the array stay too if the first turn adds nothing to it. -/
structure Expands (s s' : Store) (c a : Nat) (arr : Carray) (t : Pntr) : Prop where
  keeps : Keeps s s'
  changes : s.Changes s' c a
  still : Still s c arr.nbytes arr.elements.width (some arr.alloc) arr.size t →
    s'.items (s'.arrays a).elements = s.items arr.elements ∧ s'.ElementsOk (s'.arrays a).elements

/-- The rest of the function, for an array that belongs to one cell. -/
theorem Gathered.expands (h : Gathered s c a₀ σ c a₀ arr t) (hw : s.Wf) (hown : s.Own c a₀)
    (hc : c < s.ncells) (hok : s.ElementsOk arr.elements)
    (hindex : ∀ i, s.Valid (.obj c i) → i < arr.size) (hst : SettledArray s c arr t) :
    ∃ s' N, Expands s s' c a₀ arr t ∧ ∀ k ≥ N,
      (expandTail misread a₀ k c σ).bind (fun x => checkArrayConvert x.1 x.2) = some s' := by
  have hroom : RoomAt (some arr.alloc) arr.nbytes a₀ a₀ arr := ⟨rfl, rfl, rfl⟩
  have hfin : Finishes s c a₀ (Still s c arr.nbytes arr.elements.width (some arr.alloc) arr.size t)
      arr.elements (fun k => expandTail misread a₀ k c σ) := by
    simp only [expandTail, h.refers.array]
    cases hl : arr.elements with
    | pntrs es =>
      have hsize : arr.size = es.length := by rw [Carray.size, hl, Elements.size]
      rw [hl] at hok
      simp only [SettledArray, hl] at hst
      have hfin := expandPntrs_of_settles misread hw hown hc hst h hl hok hroom
        (fun hn => by cases hn)
      rw [h.refers.array, hl] at hfin
      rw [hsize]
      exact hfin
    | bytes l =>
      simp only [SettledArray, hl] at hst
      have hsize : arr.size = l.length := by rw [Carray.size, hl, Elements.size]
      have hstr : Strings s c a₀ arr.nbytes σ c a₀ arr t (some arr.alloc) l.length l.length := by
        refine ⟨h, by rw [hl]; rfl, hroom, by rw [h.refers.array, hl]; rfl, ?_, .inl ⟨rfl, hsize⟩, ?_⟩
        · rw [h.refers.array, hsize]
        · intro i hi
          rw [← hsize]
          exact hindex i hi
      have hfin := expandBytes_of_settles misread hw hown hc hst hstr
      rw [h.refers.array, hl] at hfin
      rw [hsize]
      exact hfin
  obtain ⟨N, r, σ', a, arr', t', hrun, hg, hels⟩ := hfin
  have href := hg.refers
  obtain ⟨arr₂, hcheck, hal, -, -⟩ := checkArrayConvert_of_refers href
  have hkeeps : Keeps σ' (σ'.put r a arr₂ (σ'.target t')) := by
    apply href.keeps_extend [] href.own hal.ok (href.wf.valid_target href.valid_tail)
      (by rw [hal.items, List.append_nil])
    rw [href.wf.denote_target href.valid_tail]
    rfl
  refine ⟨_, N, ⟨hg.keeps.trans hkeeps, ?_, fun hs => ?_⟩, fun k hk => ?_⟩
  · exact hg.changes.trans (changes_put (.inl rfl)) hg.cell hg.array
  · have hitems : σ'.items (σ'.arrays a₀).elements = s.items arr.elements := by
      rw [hels hs, hg.keeps.items hok]
    rw [← hitems]
    by_cases ha : a = a₀
    · subst ha
      rw [put_arrays_self, hkeeps.items hal.ok.elements, hal.items, href.array]
      exact ⟨rfl, hkeeps.elementsOk hal.ok.elements⟩
    · have hok' : σ'.ElementsOk (σ'.arrays a₀).elements := by
        rw [hels hs]
        exact hg.keeps.elementsOk hok
      rw [put_arrays_of_ne (Ne.symm ha)]
      exact ⟨hkeeps.items hok', hkeeps.elementsOk hok'⟩
  · have hrun' : expandTail misread a₀ k c σ = some (r, σ') := hrun k hk
    rw [hrun']
    exact hcheck

/-- The loop starts with the array of the list, after case 1. -/
theorem gathered_of_refers (href : σ.Refers c a arr t) (hw : s.Wf) (hk : Keeps s σ)
    (hch : s.Changes σ c a) (ht : s.Valid t) :
    Gathered s c a (σ.put c a arr (s.target t)) c a arr (s.target t) := by
  have htail : σ.target t = s.target t := hk.target t ht
  have hv := hw.valid_target ht
  have hk₁ : Keeps σ (σ.put c a arr (s.target t)) := by
    apply href.keeps_extend [] href.own href.ok (hk.valid _ hv) (List.append_nil _).symm
    rw [prepend_nil, ← htail, href.wf.denote_target href.valid_tail]
  refine ⟨put_refers hk₁.wf href.single, hk.trans hk₁, ?_, .inl rfl, .inl rfl, hv, ?_⟩
  · exact hch.trans (changes_put (.inl rfl)) (.inl rfl) (.inl rfl)
  · exact href.lt_narrays.trans_le (le_max_left _ _)

theorem maybeExpandArray_eq {i : Nat} (hcons : consToArray (.obj c i) s = some σ)
    (href : σ.Refers c a arr t) (hk : Keeps s σ) (ht : s.Valid t) (k : Nat) :
    maybeExpandArray misread k (.obj c i) s =
      (expandTail misread a k c (σ.put c a arr (s.target t))).bind
        (fun x => checkArrayConvert x.1 x.2) := by
  have hres := arefResolveTail_of_refers href
  rw [hk.target t ht] at hres
  simp only [maybeExpandArray, hcons, Option.bind_eq_bind, Option.bind_some, node, href.node,
    href.array, href.single, hres]
  rfl

theorem maybeExpandArray_of_refers {i : Nat} (hw : s.Wf) (hp : s.Valid (.obj c i))
    (hcons : consToArray (.obj c i) s = some σ) (href : σ.Refers c a arr t) (hk : Keeps s σ)
    (hch : s.Changes σ c a) (hown : s.Own c a) (ht : s.Valid t) (hok : s.ElementsOk arr.elements)
    (hst : SettledArray s c arr (s.target t)) :
    ∃ s' N, Expands s s' c a arr (s.target t) ∧
      ∀ k ≥ N, maybeExpandArray misread k (.obj c i) s = some s' := by
  have h := gathered_of_refers href hw hk hch ht
  have hindex : ∀ j, s.Valid (.obj c j) → j < arr.size := by
    intro j hj
    have h2 := (hk.valid _ hj).2
    simpa only [href.node, href.array] using h2
  obtain ⟨s', N, hexp, hrun⟩ := h.expands misread hw hown hp.1 hok hindex hst
  refine ⟨s', N, hexp, fun k hk' => ?_⟩
  rw [maybeExpandArray_eq misread hcons href hk ht, hrun k hk']

/-- A pointer to a cell that is neither the first of two CONS cells nor an array of its own is left
as it is. -/
theorem maybeExpandArray_idle {p : Pntr} (hcons : consToArray p s = some s)
    (hne : ∀ b tl, s.node p = some (.aref b tl) → (s.arrays b).multiref = true) (k : Nat) :
    maybeExpandArray misread k p s = some s := by
  simp only [maybeExpandArray, hcons, Option.bind_eq_bind, Option.bind_some]
  split
  · rename_i b tl c i hn
    rw [if_pos (hne b tl hn)]
    rfl
  · rfl

/-- Two CONS cells in a row. -/
theorem maybeExpandArray_pair {i d j : Nat} {x y tl tl' : Pntr} (hw : s.Wf)
    (hp : s.Valid (.obj c i)) (hn : s.nodes c = .cons x tl) (hq : s.target tl = .obj d j)
    (hd : s.nodes d = .cons y tl')
    (hst : SettledArray s c (pair (s.target x) (s.target y)) (s.target tl')) :
    ∃ s' N, Keeps s s' ∧ s.Changes s' c s.narrays ∧
      ∀ k ≥ N, maybeExpandArray misread k (.obj c i) s = some s' := by
  obtain ⟨hk, hok, hv⟩ := keeps_pair hw hp hn hq hd
  have hvd : s.Valid (.obj d j) := hq ▸ hw.valid_target (hw.cons c x tl hp.1 hn).2
  rw [← hw.target_target (hw.cons d y tl' hvd.1 hd).2] at hst
  obtain ⟨s', N, hexp, hrun⟩ := maybeExpandArray_of_refers misread hw hp
    (consToArray_of_cons hw hp hn hq hd) (put_refers hk.wf rfl) hk (changes_put (.inl rfl))
    (hw.own_new le_rfl) hv hok hst
  exact ⟨s', N, hexp.keeps, hexp.changes, hrun⟩

theorem consToArray_single {i : Nat} {x tl : Pntr} (hw : s.Wf) (hp : s.Valid (.obj c i))
    (hn : s.nodes c = .cons x tl)
    (hne : ¬ ∃ d j y tl', s.target tl = .obj d j ∧ s.nodes d = .cons y tl') :
    consToArray (.obj c i) s = some s := by
  obtain ⟨hvx, hvt⟩ := hw.cons c x tl hp.1 hn
  simp only [consToArray, hn, hw.resolve hvx, hw.resolve hvt, Option.bind_eq_bind,
    Option.bind_some]
  split
  · rename_i y tl' hd
    cases hq : s.target tl with
    | num d =>
      rw [hq] at hd
      cases hd
    | obj d j =>
      rw [hq] at hd
      exact absurd ⟨d, j, y, tl', hq, by simpa [node] using hd⟩ hne
  · rfl

/-- What a call with `p` changes: nothing, or the CONS cell, or the array of the AREF cell. -/
def Effect (s s' : Store) (p : Pntr) : Prop :=
  s' = s ∨ ∃ c i, p = .obj c i ∧
    ((s.Changes s' c s.narrays ∧ ∃ h tl, s.nodes c = .cons h tl) ∨
      ∃ a tl, s.nodes c = .aref a tl ∧ (s.arrays a).multiref = false ∧
        Expands s s' c a (s.arrays a) (s.target tl))

theorem maybeExpandArray_keeps {p : Pntr} (hw : s.Wf) (hp : s.Valid p) (hst : Settled s p) :
    ∃ s' N, Keeps s s' ∧ Effect s s' p ∧ ∀ k ≥ N, maybeExpandArray misread k p s = some s' := by
  have hidle : ∀ p, consToArray p s = some s →
      (∀ b tl, s.node p = some (.aref b tl) → (s.arrays b).multiref = true) →
      ∃ s' N, Keeps s s' ∧ Effect s s' p ∧ ∀ k ≥ N, maybeExpandArray misread k p s = some s' :=
    fun p hcons hne =>
      ⟨s, 0, .refl hw, .inl rfl, fun k _ => maybeExpandArray_idle misread hcons hne k⟩
  cases p with
  | num d => exact hidle _ rfl (by rintro _ _ ⟨⟩)
  | obj c i =>
    cases hn : s.nodes c with
    | cons x tl =>
      by_cases hsecond : ∃ d j y tl', s.target tl = .obj d j ∧ s.nodes d = .cons y tl'
      · obtain ⟨d, j, y, tl', hq, hd⟩ := hsecond
        simp only [Settled, hn, hq, node, hd] at hst
        obtain ⟨s', N, hk, hch, hrun⟩ := maybeExpandArray_pair misread hw hp hn hq hd hst
        exact ⟨s', N, hk, .inr ⟨c, i, rfl, .inl ⟨hch, x, tl, hn⟩⟩, hrun⟩
      · exact hidle _ (consToArray_single hw hp hn hsecond) (by simp [node, hn])
    | aref a tl =>
      have hcons : consToArray (.obj c i) s = some s := by simp only [consToArray, hn]
      cases hm : (s.arrays a).multiref with
      | true =>
        apply hidle _ hcons
        intro b tl' hb
        simp only [node, hn, Option.some.injEq, Node.aref.injEq] at hb
        rw [← hb.1, hm]
      | false =>
        simp only [Settled, hn] at hst
        have href : s.Refers c a (s.arrays a) tl := ⟨hw, hp.1, hn, rfl, hm⟩
        obtain ⟨s', N, hexp, hrun⟩ := maybeExpandArray_of_refers misread hw hp hcons href
          (.refl hw) (.refl s c a) href.own href.valid_tail href.ok.elements (hst hm)
        exact ⟨s', N, hexp.keeps, .inr ⟨c, i, rfl, .inr ⟨a, tl, hn, hm, hexp⟩⟩, hrun⟩
    | _ =>
      apply hidle
      · simp only [consToArray, hn]
      · simp [node, hn]

/-- A run of two steps, with another second step. -/
theorem bind_mono {α β : Type} {o : Option α} {f g : α → Option β} {y : β}
    (h : ∀ x, f x = some y → g x = some y) (hf : o.bind f = some y) : o.bind g = some y := by
  obtain ⟨x, hx, hfx⟩ := Option.bind_eq_some_iff.mp hf
  exact Option.bind_eq_some_iff.mpr ⟨x, hx, h x hfx⟩

/-- A loop that ends within `k` turns ends in the same way when it may take more. -/
theorem expandPntrs_mono {k k' : Nat} {x : Nat × Store} (hk : k ≤ k')
    (h : expandPntrs misread a k r s = some x) : expandPntrs misread a k' r s = some x := by
  induction k generalizing k' r s with
  | zero => cases h
  | succ k ih =>
    obtain ⟨j, rfl⟩ : ∃ j, k' = j + 1 := ⟨k' - 1, by omega⟩
    have hj : k ≤ j := by omega
    rw [expandPntrs] at h ⊢
    split at h
    · next hsize =>
      rw [if_pos hsize]
      refine bind_mono (fun y hy => ?_) h
      obtain ⟨_, tail⟩ := y
      dsimp only at hy ⊢
      split at hy
      · refine bind_mono (fun _ => bind_mono ?_) hy
        exact fun _ => bind_mono fun _ => bind_mono fun _ => ih hj
      · split at hy
        · next hwid =>
          rw [if_pos hwid]
          exact bind_mono (fun _ => bind_mono fun _ => ih hj) hy
        · next hwid =>
          rw [if_neg hwid]
          exact hy
      · exact hy
    · next hsize =>
      rw [if_neg hsize]
      exact h

theorem expandBytes_mono {k k' : Nat} {x : Nat × Store} (hk : k ≤ k')
    (h : expandBytes misread a k r s = some x) : expandBytes misread a k' r s = some x := by
  induction k generalizing k' r s with
  | zero => cases h
  | succ k ih =>
    obtain ⟨j, rfl⟩ : ∃ j, k' = j + 1 := ⟨k' - 1, by omega⟩
    have hj : k ≤ j := by omega
    rw [expandBytes] at h ⊢
    refine bind_mono (fun y hy => ?_) h
    obtain ⟨_, tail⟩ := y
    dsimp only at hy ⊢
    split at hy
    · split at hy
      · next hwid =>
        rw [if_pos hwid]
        exact hy
      · next hwid =>
        rw [if_neg hwid]
        split at hy
        · next hroom =>
          rw [if_pos hroom]
          exact hy
        · next hroom =>
          rw [if_neg hroom]
          exact bind_mono (fun _ => bind_mono fun _ => ih hj) hy
    · exact hy

theorem maybeExpandArray_mono {k k' : Nat} {p : Pntr} {s' : Store} (hk : k ≤ k')
    (h : maybeExpandArray misread k p s = some s') : maybeExpandArray misread k' p s = some s' := by
  rw [maybeExpandArray] at h ⊢
  refine bind_mono (fun σ hσ => ?_) h
  split at hσ
  · split at hσ
    · next hm =>
      rw [if_pos hm]
      exact hσ
    · next hm =>
      rw [if_neg hm]
      refine bind_mono (fun τ hτ => ?_) hσ
      rw [expandTail] at hτ ⊢
      split at hτ
      · obtain ⟨x, hx, hc⟩ := Option.bind_eq_some_iff.mp hτ
        exact Option.bind_eq_some_iff.mpr ⟨x, expandPntrs_mono misread hk hx, hc⟩
      · obtain ⟨x, hx, hc⟩ := Option.bind_eq_some_iff.mp hτ
        exact Option.bind_eq_some_iff.mpr ⟨x, expandBytes_mono misread hk hx, hc⟩
  · exact hσ
/-- What a call that returns has done. -/
theorem maybeExpandArray_of_eq {p : Pntr} {s' : Store} {k : Nat} (hw : s.Wf) (hp : s.Valid p)
    (hst : Settled s p) (h : maybeExpandArray misread k p s = some s') :
    Keeps s s' ∧ Effect s s' p := by
  obtain ⟨s₁, N, hk, heff, hrun⟩ := maybeExpandArray_keeps misread hw hp hst
  have h₁ := hrun (max k N) (le_max_right _ _)
  rw [maybeExpandArray_mono misread (le_max_left k N) h] at h₁
  cases h₁
  exact ⟨hk, heff⟩

/-- All pointers of the store, into arrays at any index too, denote the same lists as before. -/
theorem maybeExpandArray_preserves {p : Pntr} (hw : s.Wf) (hp : s.Valid p) (hst : Settled s p) :
    ∃ s' N, (∀ k ≥ N, maybeExpandArray misread k p s = some s') ∧
      ∀ q, s.Valid q → s'.Valid q ∧ s'.denote q = s.denote q := by
  obtain ⟨s', N, hk, -, hrun⟩ := maybeExpandArray_keeps misread hw hp hst
  exact ⟨s', N, hrun, fun q hq => ⟨hk.valid q hq, hk.denote q hq⟩⟩

/-! ## A cyclic list -/

/-- A list whose tail is the CONS cell `d`, which is its own tail: the loop has no end. -/
theorem expandPntrs_cyclic (hw : s.Wf) (hown : s.Own c a₀) {d i : Nat} {x : Pntr} (hne : d ≠ c)
    (htake : Takes s .pntr (.obj d i) (.pntrs [x]) (.obj d i)) {k : Nat} :
    ∀ {σ : Store} {r a : Nat} {arr : Carray} {room : Option Nat},
      Gathered s c a₀ σ r a arr (.obj d i) → arr.elements.width = .pntr →
      RoomAt room (sizereq 8 .pntr) a₀ a arr → (room = none ∨ room = some 8 ∧ arr.size ≤ 8) →
      (σ.arrays a₀).size < maxArraySize → expandPntrs misread a₀ k r σ = none := by
  induction k with
  | zero =>
    intros
    rfl
  | succ k ih =>
    intro σ r a arr room h hwid hroom hcase hsize
    by_cases hfits : arr.size + 1 ≤ maxArraySize
    · obtain ⟨σ₂, a', arr', hturn, ht⟩ := h.take misread hw hown hroom hwid hsize rfl hne htake
        hfits
      have hone : (Elements.pntrs [x]).size = 1 := rfl
      have hroom' := ht.place
      have hfirst := ht.first
      have hsz := ht.size
      rw [hwid, hone] at hroom' hfirst
      rw [hone] at hsz
      have hcase' : room.bind (reserve (sizereq 8 .pntr) .pntr · (arr.size + 1)) = none ∨
          room.bind (reserve (sizereq 8 .pntr) .pntr · (arr.size + 1)) = some 8 ∧
            arr'.size ≤ 8 := by
        obtain rfl | ⟨rfl, hle⟩ := hcase
        · exact .inl rfl
        · by_cases hlt : arr.size + 1 ≤ 8
          · exact .inr ⟨reserve_of_le hlt, hsz.trans_le hlt⟩
          · obtain hz : arr.size = 8 := by omega
            rw [hz]
            exact .inl (by decide)
      rw [hturn k]
      apply ih ht.gathered (ht.width.trans hwid) hroom' hcase'
      rw [Carray.size, hfirst]
      split
      · rename_i hs
        obtain hn | ⟨-, hle⟩ := hcase'
        · rw [hn] at hs
          cases hs
        · exact hle.trans_lt (by decide)
      · exact hsize
    · have hfull : arr.size = maxArraySize := by
        have hle := h.refers.ok.size_le
        omega
      obtain ⟨σ₂, r', b, arr₁, arr₂, hturn, hg, hch⟩ := h.takeChain misread hw hown hwid hsize rfl
        hne htake hfull
      have ha₀ : a₀ ≠ a := by
        rintro rfl
        rw [h.refers.array, hfull] at hsize
        exact lt_irrefl _ hsize
      have hroom' : RoomAt none (sizereq 8 .pntr) a₀ b arr₂ := (h.first.trans_le hch.new_array).ne'
      rw [hturn k]
      apply ih hg (by rw [hch.elements, htake.width]) hroom' (.inl rfl)
      rw [hch.changes.arrays a₀ h.first ha₀]
      exact hsize

end

/-- NIL, and two CONS cells with `nil` as the head. -/
def twoCells (tail tail' : Pntr) : Store where
  nodes
    | 1 => .cons (.obj 0 0) tail
    | 2 => .cons (.obj 0 0) tail'
    | _ => .nil
  ncells := 3
  arrays _ := pair (.obj 0 0) (.obj 0 0)
  narrays := 0
  globnilpntr := .obj 0 0

theorem twoCells_wf {tail tail' : Pntr} (ht : (twoCells tail tail').Valid tail)
    (ht' : (twoCells tail tail').Valid tail') : (twoCells tail tail').Wf := by
  have hnil : (twoCells tail tail').Valid (.obj 0 0) := ⟨Nat.succ_pos 2, rfl⟩
  -- a cell is NIL or one of the two CONS cells
  have hcases : ∀ c, (twoCells tail tail').nodes c = .nil ∨
      ∃ t, (twoCells tail tail').nodes c = .cons (.obj 0 0) t ∧ (twoCells tail tail').Valid t := by
    intro c
    match c with
    | 0 => exact .inl rfl
    | 1 => exact .inr ⟨tail, rfl, ht⟩
    | 2 => exact .inr ⟨tail', rfl, ht'⟩
    | _ + 3 => exact .inl rfl
  refine ⟨?_, ?_, ?_, ?_, ?_, hnil⟩
  · intro c h t _ hn
    obtain hc | ⟨t, hc, hv⟩ := hcases c
    · rw [hc] at hn
      cases hn
    · rw [hc] at hn
      cases hn
      exact ⟨hnil, hv⟩
  · intro c q _ hn
    obtain hc | ⟨t, hc, -⟩ := hcases c
    all_goals
      rw [hc] at hn
      cases hn
  · intro c a t _ hn
    obtain hc | ⟨t, hc, -⟩ := hcases c
    all_goals
      rw [hc] at hn
      cases hn
  · intro c _ a t _ _ _ hn
    obtain hc | ⟨t, hc, -⟩ := hcases c
    all_goals
      rw [hc] at hn
      cases hn
  · intro q hq
    cases q with
    | num d => exact ⟨_, rfl⟩
    | obj c i =>
      refine ⟨.obj c i, ?_⟩
      rw [Store.resolvePntr, Store.resolveFrom]
      obtain hc | ⟨t, hc, -⟩ := hcases c
      all_goals rw [hc]

/-- The list `xs = cons nil ys` for `ys = cons nil ys`: the call does not return. -/
theorem maybeExpandArray_cyclic :
    (twoCells (.obj 2 0) (.obj 2 0)).Wf ∧ (twoCells (.obj 2 0) (.obj 2 0)).Valid (.obj 1 0) ∧
      ¬ ∃ k s', maybeExpandArray (fun _ _ _ => .num 0) k (.obj 1 0)
        (twoCells (.obj 2 0) (.obj 2 0)) = some s' := by
  let s := twoCells (.obj 2 0) (.obj 2 0)
  have hv : s.Valid (.obj 2 0) := ⟨by decide, rfl⟩
  have hw : s.Wf := twoCells_wf hv hv
  have hp : s.Valid (.obj 1 0) := ⟨by decide, rfl⟩
  refine ⟨hw, hp, ?_⟩
  rintro ⟨k, s', hrun⟩
  have hn : s.nodes 1 = .cons (.obj 0 0) (.obj 2 0) := rfl
  have hd : s.nodes 2 = .cons (.obj 0 0) (.obj 2 0) := rfl
  have hq : s.target (.obj 2 0) = .obj 2 0 := rfl
  obtain ⟨hk, -, -⟩ := keeps_pair hw hp hn hq hd
  rw [hq] at hk
  have hcons := consToArray_of_cons hw hp hn hq hd
  rw [hq] at hcons
  let arr := pair (s.target (.obj 0 0)) (s.target (.obj 0 0))
  have href := put_refers hk.wf (rfl : arr.multiref = false)
  have h := gathered_of_refers href hw hk (changes_put (.inl rfl)) hv
  have htake : Takes s .pntr (.obj 2 0) (.pntrs [s.target (.obj 0 0)]) (.obj 2 0) := .cons hd
  rw [hq] at h
  have hroom : RoomAt (some 8) (sizereq 8 .pntr) s.narrays s.narrays arr := ⟨rfl, rfl, rfl⟩
  have hnone := expandPntrs_cyclic (fun _ _ _ => .num 0) (k := k) hw (hw.own_new le_rfl) (by decide)
    htake h rfl hroom (.inr ⟨rfl, by decide⟩) (by rw [h.refers.array]; decide)
  rw [maybeExpandArray_eq (fun _ _ _ => .num 0) hcons href hk hv, hq, expandTail,
    h.refers.array] at hrun
  change (expandPntrs _ _ k 1 _).bind _ = _ at hrun
  rw [hnone] at hrun
  cases hrun

/-- The list `xs = cons nil (cons nil nil)` becomes an array with two elements. -/
theorem maybeExpandArray_preserves_two :
    ∃ s' N, (∀ k ≥ N, maybeExpandArray (fun _ _ _ => .num 0) k (.obj 1 0)
        (twoCells (.obj 2 0) (.obj 0 0)) = some s') ∧
      ∀ q, (twoCells (.obj 2 0) (.obj 0 0)).Valid q →
        s'.Valid q ∧ s'.denote q = (twoCells (.obj 2 0) (.obj 0 0)).denote q := by
  have hv : (twoCells (.obj 2 0) (.obj 0 0)).Valid (.obj 2 0) := ⟨by decide, rfl⟩
  have hv' : (twoCells (.obj 2 0) (.obj 0 0)).Valid (.obj 0 0) := ⟨by decide, rfl⟩
  have hp : (twoCells (.obj 2 0) (.obj 0 0)).Valid (.obj 1 0) := ⟨by decide, rfl⟩
  apply maybeExpandArray_preserves _ (twoCells_wf hv hv') hp
  -- NIL is the end of the list
  have h0 : (twoCells (.obj 2 0) (.obj 0 0)).target (.obj 0 0) = .obj 0 0 := rfl
  apply Settles.ends
  refine ⟨fun i hi => ?_, fun xs t' htake => ?_⟩
  · rw [h0] at hi
    cases hi
  · rw [h0] at htake
    generalize hw : Width.pntr = w at htake
    cases htake with
    | cons hn => cases hn
    | aref hn => cases hn

end Lists
end Runtime
end NReduce
