import NReduce.Runtime.Instantiate
import NReduce.Runtime.Spine

/-!
# NReduce.Runtime.ReductionSteps

One step of the engine: the root of a redex is overwritten by an indirection to what the
supercombinator or the builtin at the tip of its spine has made. No cell changes its value by that,
and what was in weak head normal form stays so.

What the builtins compute is a hypothesis, `RightBuiltins`.
-/

namespace NReduce
namespace Reduction

open Compiler Domain Heap

/-- `p` leads to a number, to a list or an array, or to a function that lacks arguments. -/
inductive Whnf (scs : List Scomb) (h : Heap) (p : Pntr) : Prop
  | number {d : Double} (hp : h.Resolves p (.number d))
  | data {c : Nat} (hp : h.Resolves p (.cell c)) (hc : (h.cells c).isData = true)
  | function {t i : Nat} {sc : Scomb} {s : List (Nat × Pntr)} {q : Pntr} (hp : h.Resolves p q)
    (hs : h.Spine (.cell t) s q) (ht : h.cells t = .scref i) (hsc : scs[i]? = some sc)
    (hlen : s.length < sc.nargs)

/-- The spine of a redex with the root `d`: the tip `t` has just the arguments it needs. -/
structure Redex (scs : List Scomb) (h : Heap) (t : Nat) (s : List (Nat × Pntr)) (d : Nat) :
    Prop where
  spine : h.Spine (.cell t) s (.cell d)
  tip : (∃ b, h.cells t = .builtin b ∧ s.length = (builtinInfo b).nargs) ∨
    ∃ i sc, h.cells t = .scref i ∧ scs[i]? = some sc ∧ s.length = sc.nargs

theorem isRedex_of_application {h : Heap} {c : Nat} {f a : Pntr}
    (hc : h.cells c = .application f a) : (h.cells c).isRedex = true := by
  rw [hc]
  rfl

namespace Redex

variable {scs : List Scomb} {h : Heap} {t d : Nat} {s : List (Nat × Pntr)}

theorem tip_application (hr : Redex scs h t s d) : h.application? (.cell t) = none := by
  obtain ⟨b, ht, -⟩ | ⟨i, sc, ht, -⟩ := hr.tip <;> simp [application?, ht]

theorem isRedex (hr : Redex scs h t s d) : (h.cells d).isRedex = true := by
  obtain ⟨hs, ht⟩ := hr
  cases hs with
  | tip =>
    obtain ⟨b, -, hlen⟩ | ⟨i, sc, ht, -⟩ := ht
    · have := nargs_pos b
      simp at hlen
      omega
    · rw [ht]
      rfl
  | app hc => exact isRedex_of_application hc

/-- The root of a redex is not on the spine of a function that lacks arguments. -/
theorem not_mem_function (hr : Redex scs h t s d) {t' i : Nat} {sc : Scomb}
    {s' : List (Nat × Pntr)} {q : Pntr} (hs : h.Spine (.cell t') s' q) (ht : h.cells t' = .scref i)
    (hsc : scs[i]? = some sc) (hlen : s'.length < sc.nargs) : d ≠ t' ∧ d ∉ s'.map Prod.fst := by
  have hq' : h.application? (.cell t') = none := by simp [application?, ht]
  have htip := hr.tip_application
  obtain ⟨hspine, htips⟩ := hr
  -- both tips are the same supercombinator
  have hlack : t = t' → s.length ≤ s'.length → False := by
    rintro rfl hle
    obtain ⟨b, hb, -⟩ | ⟨j, sc', hj, hsc', hlen'⟩ := htips
    · rw [hb] at ht
      cases ht
    · rw [hj] at ht
      cases ht
      rw [hsc'] at hsc
      cases hsc
      omega
  cases hspine with
  | tip =>
    refine ⟨fun heq => hlack heq (Nat.zero_le _), fun hm => ?_⟩
    obtain ⟨b, hb, hbt⟩ := List.mem_map.mp hm
    obtain ⟨f, hf⟩ := hs.mem hb
    rw [hbt] at hf
    rw [application?_eq_some.mpr ⟨_, rfl, hf⟩] at htip
    cases htip
  | app hc hf hspine =>
    refine ⟨fun heq => ?_, fun hm => ?_⟩
    · rw [heq, ht] at hc
      cases hc
    · obtain ⟨heq, s₁, rfl⟩ := Spine.shared (.app hc hf hspine) hs htip hq' hm
      cases heq
      exact hlack rfl (by simp)

end Redex

section

variable {K : Type} (I : Interp K) (scs : List Scomb)

/-- What the engine may do to the graph -/
structure Evolves (h h' : Heap) : Prop where
  wf : h'.Wf
  le : h.ncells ≤ h'.ncells
  value : ∀ c < h.ncells, heapValue I scs h' c = heapValue I scs h c
  ind : ∀ c p, h.cells c = .ind p → h'.cells c = .ind p
  builtin : ∀ c b, h.cells c = .builtin b → h'.cells c = .builtin b
  whnf : ∀ p, Whnf scs h p → Whnf scs h' p

/-- Lists and arrays may take another form. -/
def KeepsData (h h' : Heap) : Prop :=
  ∀ c, (h.cells c).isData = true → ∃ d, h'.Resolves (.cell c) (.cell d) ∧ (h'.cells d).isData = true

/-- A builtin that is given its strict arguments in weak head normal form computes the function that
`I` gives it. -/
def RightBuiltins (builtins : Bif → Heap → List Pntr → Option (Pntr × Heap)) : Prop :=
  ∀ b h args res h', h.Wf → (∀ a ∈ args, a.Inside h.ncells) →
    args.length = (builtinInfo b).nargs →
    (∀ a ∈ args.take (builtinInfo b).nstrict, h.Resolves a a ∧ h.application? a = none ∧
      Whnf scs h a) →
    builtins b h args = some (res, h') →
    Builds I scs h h' res (fun σ => appN (I.builtin b) (args.map (·.value I σ))) ∧ KeepsData h h'

variable {I scs}

theorem Evolves.refl {h : Heap} (hw : h.Wf) : Evolves I scs h h :=
  ⟨hw, Nat.le_refl _, fun _ _ => rfl, fun _ _ hc => hc, fun _ _ hc => hc, fun _ hp => hp⟩

theorem Evolves.trans {h h' h'' : Heap} (he : Evolves I scs h h') (he' : Evolves I scs h' h'') :
    Evolves I scs h h'' where
  wf := he'.wf
  le := he.le.trans he'.le
  value c hc := (he'.value c (Nat.lt_of_lt_of_le hc he.le)).trans (he.value c hc)
  ind c p hc := he'.ind c p (he.ind c p hc)
  builtin c b hc := he'.builtin c b (he.builtin c b hc)
  whnf p hp := he'.whnf p (he.whnf p hp)

namespace Redex

variable {h h' : Heap} {t d : Nat} {s : List (Nat × Pntr)} {res : Pntr} {v : Values K → Dom K}

/-- The tip and the arguments of a redex mean what its root means. -/
theorem heapValue_set (hr : Redex scs h t s d) (hw : h.Wf) (hb : Builds I scs h h' res v)
    (hv : ∀ σ : Values K, (∀ c p, h.cells c = .ind p → σ c = p.value I σ) →
      v σ = appN ((h.cells t).value I scs σ) ((args s).map (·.value I σ))) :
    ∀ c < h.ncells, heapValue I scs (h'.set d (.ind res)) c = heapValue I scs h c := by
  have hcell : ∀ c, (h.cells c).isRedex = true ∨ (∃ b, h.cells c = .builtin b) ∨
      (∃ p, h.cells c = .ind p) → h'.cells c = h.cells c := by
    intro c hc
    obtain hc | ⟨b, hc⟩ | ⟨p, hc⟩ := hc
    · exact hb.kept_of_isRedex hw hc
    · exact hb.kept c (hw.lt (by simp [hc])) (by simp [hc, Cell.isData])
    · exact hb.kept c (hw.lt (by simp [hc])) (by simp [hc, Cell.isData])
  apply hb.heapValue_set hw hr.isRedex
  · have hind : ∀ c p, h.cells c = .ind p →
        heapValue I scs h c = p.value I (heapValue I scs h) := by
      intro c p hc
      rw [heapValue_cell, hc]
      rfl
    have hval := hr.spine.value I scs hind fun b _ => heapValue_cell I scs h b.1
    rw [hv _ hind, ← heapValue_cell]
    exact le_of_eq hval.symm
  · intro σ hσ
    have hind : ∀ c p, h.cells c = .ind p → σ c = p.value I σ := by
      intro c p hc
      have hne : c ≠ d := by
        rintro rfl
        have := hr.isRedex
        rw [hc] at this
        cases this
      rw [hσ c hne, hcell c (.inr (.inr ⟨p, hc⟩)), hc]
      rfl
    rw [hv σ hind]
    have htip := hr.tip_application
    have htips := hr.tip
    cases hr.spine with
    | tip => exact le_refl _
    | @app c f a p s hc hf hs =>
      have hnot : d ∉ s.map Prod.fst := Spine.not_mem (.app hc hf hs) htip
      have hne : t ≠ d := by
        rintro rfl
        rw [application?_eq_some.mpr ⟨_, rfl, hc⟩] at htip
        cases htip
      have hσt : σ t = (h.cells t).value I scs σ := by
        rw [hσ t hne]
        obtain ⟨b, hb, -⟩ | ⟨i, sc, hi, -⟩ := htips
        · rw [hcell t (.inr (.inl ⟨b, hb⟩))]
        · rw [hcell t (.inl (by rw [hi]; rfl))]
      have hval := hs.value I scs hind fun b hb => by
        have hbd : b.1 ≠ d := by
          rintro rfl
          exact hnot (List.mem_map.mpr ⟨b, hb, rfl⟩)
        obtain ⟨f', hf'⟩ := hs.mem hb
        rw [hσ b.1 hbd, hcell b.1 (.inl (isRedex_of_application hf'))]
      rw [hc, args_cons, List.map_append, List.map_singleton, appN_append_singleton, ← hσt]
      simp only [Cell.value]
      rw [hf.value I hind, hval]
      exact le_refl _

/-- One step of the engine -/
theorem evolves (hr : Redex scs h t s d) (hw : h.Wf) (hb : Builds I scs h h' res v)
    (hdata : KeepsData h h')
    (hv : ∀ σ : Values K, (∀ c p, h.cells c = .ind p → σ c = p.value I σ) →
      v σ = appN ((h.cells t).value I scs σ) ((args s).map (·.value I σ))) :
    Evolves I scs h (h'.set d (.ind res)) ∧
      ∀ c, c ≠ d → (h.cells c).isRedex = true → (h'.set d (.ind res)).cells c = h.cells c := by
  have hcell : ∀ c, c ≠ d → (h'.set d (.ind res)).cells c = h'.cells c :=
    fun c hc => set_of_ne _ _ hc
  have hkept : ∀ c, c ≠ d → h.cells c ≠ .empty → (h.cells c).isData = false →
      (h'.set d (.ind res)).cells c = h.cells c := by
    intro c hc he hd
    rw [hcell c hc, hb.kept c (hw.lt he) hd]
  have hne : ∀ c, (h.cells c).isRedex = false → c ≠ d := by
    rintro c hc rfl
    rw [hr.isRedex] at hc
    cases hc
  have hind : ∀ c p, h.cells c = .ind p → (h'.set d (.ind res)).cells c = .ind p := by
    intro c p hc
    rw [hkept c (hne c (by rw [hc]; rfl)) (by simp [hc]) (by rw [hc]; rfl), hc]
  have hroot : ∀ p, h'.cells d ≠ .ind p := by
    intro p hp
    have := hr.isRedex
    rw [← hb.kept_of_isRedex hw hr.isRedex, hp] at this
    cases this
  refine ⟨⟨hb.set_wf hw hr.isRedex, hb.le, hr.heapValue_set hw hb hv, hind, ?_, ?_⟩, ?_⟩
  · intro c b hc
    rw [hkept c (hne c (by rw [hc]; rfl)) (by simp [hc]) (by rw [hc]; rfl), hc]
  · intro p hp
    cases hp with
    | @number d' hp => exact .number (hp.keep hind (.number d'))
    | @data c hp hc =>
      obtain ⟨c', hc', hd'⟩ := hdata c hc
      have hne' : c' ≠ d := by
        rintro rfl
        have := hr.isRedex
        rw [← hb.kept_of_isRedex hw hr.isRedex] at this
        cases hcell' : h'.cells c' <;> simp_all [Cell.isData, Cell.isRedex]
      have hself : (h'.set d (.ind res)).Resolves (.cell c') (.cell c') :=
        .cell fun r => by rw [hcell c' hne']; exact hc'.not_ind r
      have hind' : ∀ c p, h'.cells c = .ind p → (h'.set d (.ind res)).cells c = .ind p := by
        intro c p hcp
        rw [hcell c, hcp]
        rintro rfl
        exact hroot p hcp
      refine .data (hp.keep hind (hc'.keep hind' hself)) ?_
      rw [hcell c' hne', hd']
    | @function t' i sc s' q hp hs ht hsc hlen =>
      obtain ⟨hdt, hds⟩ := hr.not_mem_function hs ht hsc hlen
      have ht' : (h'.set d (.ind res)).cells t' = .scref i := by
        rw [hkept t' hdt.symm (by simp [ht]) (by rw [ht]; rfl), ht]
      have hs' : (h'.set d (.ind res)).Spine (.cell t') s' q := by
        refine hs.keep hind (fun b hb' => ?_) (.cell fun r => by rw [ht']; simp)
        obtain ⟨f, hf⟩ := hs.mem hb'
        refine hkept b.1 ?_ (by simp [hf]) (by rw [hf]; rfl)
        rintro rfl
        exact hds (List.mem_map.mpr ⟨b, hb', rfl⟩)
      refine .function (hp.keep hind ?_) hs' ht' hsc hlen
      cases hs' with
      | tip => exact .cell fun r => by rw [ht']; simp
      | app hc _ _ => exact .cell fun r => by rw [hc]; simp
  · intro c hc hr'
    rw [hcell c hc, hb.kept_of_isRedex hw hr']

end Redex

end

end Reduction
end NReduce
