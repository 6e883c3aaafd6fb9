import Mathlib.Order.BooleanAlgebra.Set
import Mathlib.Data.List.Basic

/-!
# NReduce.Logic.DepthFirst

Depth-first walks over a graph whose nodes have their successors in an order.

* `Walk`: a walk, with the list of the nodes it has visited. The latest node is the first.
* `Meets`: what can be reached through the nodes of a set.
* `Before`: a node that is met before another one, found on the graph without a list of visited
  nodes.
* `Walk.mem_iff`, `Walk.earlier_iff`: the nodes of a region that a walk visits, and their order.
-/

namespace NReduce
namespace Logic
namespace DepthFirst

variable {α : Type} {next : α → List α} {C D D' : Set α} {zs s t u : List α} {v w x y z : α}

/-- `Walk next zs s t`: going from the nodes `zs` after the visited nodes `s`, the visited nodes are
`t` in the end. -/
inductive Walk (next : α → List α) : List α → List α → List α → Prop where
  | nil (s : List α) : Walk next [] s s
  | seen {z : α} {zs s t : List α} : z ∈ s → Walk next zs s t → Walk next (z :: zs) s t
  | visit {z : α} {zs s t u : List α} : z ∉ s → Walk next (next z) (z :: s) t → Walk next zs t u →
      Walk next (z :: zs) s u

/-- `y` can be reached from `zs` through nodes of `D`; it need not be in `D` itself. -/
inductive Meets (next : α → List α) (D : Set α) : List α → α → Prop where
  | here {zs : List α} {y : α} : y ∈ zs → Meets next D zs y
  | into {zs : List α} {y z : α} : z ∈ zs → z ∈ D → Meets next D (next z) y → Meets next D zs y

/-- Going from `zs` through nodes of `D`, `y` is met before `x`. -/
inductive Before (next : α → List α) : Set α → α → α → List α → Prop where
  | here {D : Set α} {x y : α} {zs : List α} : y ≠ x → Before next D y x (y :: zs)
  | into {D : Set α} {x y z : α} {zs : List α} : z ≠ x → z ∈ D →
      Before next (D \ {z}) y x (next z) → Before next D y x (z :: zs)
  | later {D : Set α} {x y z : α} {zs : List α} : ¬ Meets next D [z] x → Before next D y x zs →
      Before next D y x (z :: zs)

/-- In a list whose first element came last, `y` came before `x`. -/
def Earlier (y x : α) : List α → Prop
  | [] => False
  | z :: t => Earlier y x t ∨ z = y ∧ x ∉ t

/-! ## Meeting -/

theorem Meets.mono (hD : D ⊆ D') (h : Meets next D zs y) : Meets next D' zs y := by
  induction h with
  | here hy => exact .here hy
  | into hz hzD _ ih => exact .into hz (hD hzD) ih

theorem Meets.trans (h : Meets next D zs w) (hw : w ∈ D) (hy : Meets next D (next w) y) :
    Meets next D zs y := by
  induction h with
  | here hw' => exact .into hw' hw hy
  | into hz hzD _ ih => exact .into hz hzD (ih hw hy)

theorem Meets.append_left (h : Meets next D zs y) (zs' : List α) :
    Meets next D (zs ++ zs') y := by
  cases h with
  | here hy => exact .here (List.mem_append_left _ hy)
  | into hz hzD h => exact .into (List.mem_append_left _ hz) hzD h

theorem Meets.append_right (h : Meets next D zs y) (zs' : List α) :
    Meets next D (zs' ++ zs) y := by
  cases h with
  | here hy => exact .here (List.mem_append_right _ hy)
  | into hz hzD h => exact .into (List.mem_append_right _ hz) hzD h

theorem meets_append {zs' : List α} :
    Meets next D (zs ++ zs') y ↔ Meets next D zs y ∨ Meets next D zs' y := by
  constructor
  · rintro (hy | ⟨hz, hzD, h⟩)
    · exact (List.mem_append.mp hy).imp .here .here
    · exact (List.mem_append.mp hz).imp (.into · hzD h) (.into · hzD h)
  · rintro (h | h)
    · exact h.append_left zs'
    · exact h.append_right zs

theorem meets_nil : ¬ Meets next D [] y := by
  rintro (hy | ⟨hz, -, -⟩) <;> exact absurd ‹_› (List.not_mem_nil)

theorem meets_singleton : Meets next D [z] y ↔ z = y ∨ z ∈ D ∧ Meets next D (next z) y := by
  constructor
  · rintro (hy | ⟨hz, hzD, h⟩)
    · exact .inl (List.mem_singleton.mp hy).symm
    · obtain rfl := List.mem_singleton.mp hz
      exact .inr ⟨hzD, h⟩
  · rintro (rfl | ⟨hzD, h⟩)
    · exact .here (List.mem_singleton_self z)
    · exact .into (List.mem_singleton_self z) hzD h

theorem meets_cons : Meets next D (z :: zs) y ↔ Meets next D [z] y ∨ Meets next D zs y :=
  show Meets next D ([z] ++ zs) y ↔ _ from meets_append

/-- A way to `y` need not come back to `z`. -/
theorem Meets.avoid (h : Meets next D zs y) (z : α) :
    Meets next (D \ {z}) zs y ∨ Meets next (D \ {z}) (next z) y := by
  induction h with
  | here hy => exact .inl (.here hy)
  | @into zs y w hw hwD _ ih =>
    by_cases hwz : w = z
    · subst hwz
      exact .inr (ih.elim id id)
    · exact ih.imp (.into hw ⟨hwD, hwz⟩) id

theorem Meets.from_next (h : Meets next D (next z) y) : Meets next (D \ {z}) (next z) y :=
  (h.avoid z).elim id id

/-- Where the nodes of `D` lead to nodes of a region only, only the region's part of `D` matters. -/
theorem Meets.restrict {R : Set α} (h : Meets next D zs y) (hzs : ∀ z ∈ zs, z ∈ R)
    (hR : ∀ z ∈ R, z ∈ D → z ∈ D' ∧ ∀ w ∈ next z, w ∈ R) : Meets next D' zs y := by
  induction h with
  | here hy => exact .here hy
  | into hz hzD _ ih =>
    obtain ⟨hzD', hnext⟩ := hR _ (hzs _ hz) hzD
    exact .into hz hzD' (ih hnext)

/-- What is met through a region that the nodes of `D` do not leave belongs to it. -/
theorem Meets.mem_region {R : Set α} (h : Meets next D zs y) (hzs : ∀ z ∈ zs, z ∈ R)
    (hR : ∀ z ∈ D, ∀ w ∈ next z, w ∈ R) : y ∈ R := by
  induction h with
  | here hy => exact hzs _ hy
  | into hz hzD _ ih => exact ih (hR _ hzD)

theorem Before.meets (h : Before next D y x zs) : Meets next D zs y := by
  induction h with
  | here _ => exact .here List.mem_cons_self
  | into _ hz _ ih => exact .into List.mem_cons_self hz (ih.mono Set.sdiff_subset)
  | later _ _ ih => exact meets_cons.mpr (.inr ih)

/-! ## Earlier -/

theorem Earlier.mem (h : Earlier y x t) : y ∈ t := by
  induction t with
  | nil => exact h.elim
  | cons z t ih =>
    obtain h | ⟨rfl, -⟩ := h
    · exact List.mem_cons_of_mem z (ih h)
    · exact List.mem_cons_self

theorem Earlier.of_suffix (h : Earlier y x s) (hs : s <:+ t) : Earlier y x t := by
  obtain ⟨new, rfl⟩ := hs
  induction new with
  | nil => exact h
  | cons z new ih => exact .inl ih

theorem Earlier.to_suffix (h : Earlier y x t) (hs : s <:+ t) (hx : x ∈ s) : Earlier y x s := by
  obtain ⟨new, rfl⟩ := hs
  induction new with
  | nil => exact h
  | cons z new ih =>
    obtain h | ⟨-, hx'⟩ := h
    · exact ih h
    · exact absurd (List.mem_append_right new hx) hx'

theorem earlier_of_not_mem (hy : y ∈ t) (hx : x ∉ t) : Earlier y x t := by
  induction t with
  | nil => exact absurd hy List.not_mem_nil
  | cons z t ih =>
    have hxt := List.not_mem_of_not_mem_cons hx
    obtain rfl | hy := List.mem_cons.mp hy
    · exact .inr ⟨rfl, hxt⟩
    · exact .inl (ih hy hxt)

theorem earlier_filter {p : α → Bool} (hy : p y = true) (hx : p x = true) :
    Earlier y x (t.filter p) ↔ Earlier y x t := by
  induction t with
  | nil => exact Iff.rfl
  | cons z t ih =>
    by_cases hz : p z = true
    · rw [List.filter_cons_of_pos hz, Earlier, Earlier, ih, List.mem_filter, hx]
      simp
    · rw [List.filter_cons_of_neg hz, ih, Earlier]
      refine ⟨.inl, fun h => h.elim id ?_⟩
      rintro ⟨rfl, -⟩
      exact absurd hy hz

/-! ## Walks -/

theorem Walk.suffix (h : Walk next zs s t) : s <:+ t := by
  induction h with
  | nil s => exact List.suffix_refl s
  | seen _ _ ih => exact ih
  | visit _ _ _ ih₁ ih₂ => exact ((List.suffix_cons _ _).trans ih₁).trans ih₂

theorem Walk.append {zs' : List α} (h : Walk next zs s t) (h' : Walk next zs' t u) :
    Walk next (zs ++ zs') s u := by
  induction h with
  | nil s => exact h'
  | seen hz _ ih => exact .seen hz (ih h')
  | visit hz h₁ _ _ ih₂ => exact .visit hz h₁ (ih₂ h')

theorem Walk.nodup (h : Walk next zs s t) (hs : s.Nodup) : t.Nodup := by
  induction h with
  | nil s => exact hs
  | seen _ _ ih => exact ih hs
  | visit hz _ _ ih₁ ih₂ => exact ih₂ (ih₁ (List.nodup_cons.mpr ⟨hz, hs⟩))

/-- The region `C`, where `D` is what is left of it: the walk from `s` to `t` has visited the rest,
and it does not come into the region from the nodes that it visits outside. -/
structure Region (next : α → List α) (C D : Set α) (s t : List α) : Prop where
  sub : D ⊆ C
  seen : ∀ v ∈ C, v ∉ D → v ∈ s
  out : ∀ v ∈ t, v ∉ s → v ∉ C → ∀ w ∈ next v, w ∉ C

theorem Region.mono {s' t' : List α} (h : Region next C D s t) (hs : s ⊆ s') (ht : t' ⊆ t) :
    Region next C D s' t' where
  sub := h.sub
  seen v hv hD := hs (h.seen v hv hD)
  out v hv hs' := h.out v (ht hv) fun hvs => hs' (hs hvs)

theorem Region.enter (h : Region next C D (z :: s) t) : Region next C (D \ {z}) (z :: s) t where
  sub := Set.sdiff_subset.trans h.sub
  seen v hv hD := by
    by_cases hvz : v = z
    · exact hvz ▸ List.mem_cons_self
    · exact h.seen v hv fun hvD => hD ⟨hvD, hvz⟩
  out := h.out

/-- A walk that starts outside of the region stays there. -/
theorem Walk.outside (h : Walk next zs s t) (hR : ∀ v ∈ t, v ∉ s → v ∉ C → ∀ w ∈ next v, w ∉ C)
    (hzs : ∀ z ∈ zs, z ∉ C) : ∀ v ∈ t, v ∈ C → v ∈ s := by
  induction h with
  | nil s => exact fun v hv _ => hv
  | seen hz _ ih => exact ih hR fun w hw => hzs w (List.mem_cons_of_mem _ hw)
  | @visit z zs s t u hz h₁ h₂ ih₁ ih₂ =>
    intro v hv hvC
    have hzC : z ∉ C := hzs z List.mem_cons_self
    have htu : t ⊆ u := h₂.suffix.subset
    have hst : z :: s ⊆ t := h₁.suffix.subset
    have hvt : v ∈ t := by
      refine ih₂ (fun w hw hwt => hR w hw fun hws => hwt ?_)
        (fun w hw => hzs w (List.mem_cons_of_mem _ hw)) v hv hvC
      exact hst (List.mem_cons_of_mem _ hws)
    have hvs : v ∈ z :: s := by
      refine ih₁ (fun w hw hwz => hR w (htu hw) fun hws => hwz (List.mem_cons_of_mem _ hws))
        (hR z (htu (hst List.mem_cons_self)) hz hzC) v hvt hvC
    obtain rfl | hvs := List.mem_cons.mp hvs
    · exact absurd hvC hzC
    · exact hvs

/-- The nodes of the region that are visited can be reached. -/
theorem Walk.sound (h : Walk next zs s t) (hR : Region next C D s t) :
    ∀ v ∈ t, v ∈ C → v ∈ s ∨ Meets next D zs v := by
  induction h with
  | nil s => exact fun v hv _ => .inl hv
  | seen _ _ ih => exact fun v hv hvC => (ih hR v hv hvC).imp id fun h => meets_cons.mpr (.inr h)
  | @visit z zs s t u hz h₁ h₂ ih₁ ih₂ =>
    intro v hv hvC
    have htu : t ⊆ u := h₂.suffix.subset
    have hst : z :: s ⊆ t := h₁.suffix.subset
    have hs : s ⊆ z :: s := fun w hw => List.mem_cons_of_mem _ hw
    obtain hvt | hvt := ih₂ (hR.mono (fun w hw => hst (hs hw)) (fun w hw => hw)) v hv hvC
    · by_cases hzC : z ∈ C
      · have hzD : z ∈ D := by
          by_contra hzD
          exact hz (hR.seen z hzC hzD)
        obtain hvs | hm := ih₁ (hR.mono hs htu) v hvt hvC
        · obtain rfl | hvs := List.mem_cons.mp hvs
          · exact .inr (.here List.mem_cons_self)
          · exact .inl hvs
        · exact .inr (.into List.mem_cons_self hzD hm)
      · have hvs := h₁.outside (fun w hw hwz => hR.out w (htu hw) fun hws => hwz (hs hws))
          (hR.out z (htu (hst List.mem_cons_self)) hz hzC) v hvt hvC
        obtain rfl | hvs := List.mem_cons.mp hvs
        · exact absurd hvC hzC
        · exact .inl hvs
    · exact .inr (meets_cons.mpr (.inr hvt))

/-- The visited nodes do not lead to `x`. -/
def Blocked (next : α → List α) (D : Set α) (s : List α) (x : α) : Prop :=
  ∀ v ∈ s, v ∈ D → ¬ Meets next D (next v) x

theorem Blocked.enter (h : Blocked next D s x) : Blocked next (D \ {z}) (z :: s) x := by
  intro v hv hvD hm
  obtain rfl | hv := List.mem_cons.mp hv
  · exact hvD.2 rfl
  · exact h v hv hvD.1 (hm.mono Set.sdiff_subset)

theorem Blocked.not_meets (h : Blocked next D s x) (hz : z ∈ s) (hx : x ∉ s) :
    ¬ Meets next D [z] x := by
  rw [meets_singleton]
  rintro (rfl | ⟨hzD, hm⟩)
  · exact hx hz
  · exact h z hz hzD hm

/-- What a node leads to has been visited after it, or nothing that was visited leads to `x`. -/
theorem Blocked.rest (h : Blocked next D s x) (hR : Region next C D s t)
    (hw : Walk next (next z) (z :: s) t) (hz : z ∉ s) (hx : ¬ Meets next D [z] x) :
    Blocked next D t x := by
  intro v hv hvD hm
  have hs : s ⊆ z :: s := fun w hw => List.mem_cons_of_mem _ hw
  have hst : z :: s ⊆ t := hw.suffix.subset
  rw [meets_singleton, not_or, not_and] at hx
  have hzx : z = v → False := by
    rintro rfl
    exact hx.2 hvD hm
  by_cases hvs : v ∈ s
  · exact h v hvs hvD hm
  · by_cases hzC : z ∈ C
    · have hzD : z ∈ D := by
        by_contra hzD
        exact hz (hR.seen z hzC hzD)
      obtain hvz | hmv := hw.sound (hR.mono hs fun w hw => hw) v hv (hR.sub hvD)
      · obtain rfl | hvs' := List.mem_cons.mp hvz
        · exact hzx rfl
        · exact hvs hvs'
      · exact hx.2 hzD (hmv.trans hvD hm)
    · have hvz := hw.outside (fun w hwt hwz => hR.out w hwt fun hws => hwz (hs hws))
        (hR.out z (hst List.mem_cons_self) hz hzC) v hv (hR.sub hvD)
      obtain rfl | hvs' := List.mem_cons.mp hvz
      · exact hzx rfl
      · exact hvs hvs'

/-- What can be reached is visited. -/
theorem Walk.complete (h : Walk next zs s t) : ∀ {D : Set α}, Region next C D s t →
    Blocked next D s x → Meets next D zs x → x ∉ s → x ∈ t := by
  induction h with
  | nil s => exact fun _ _ hm _ => absurd hm meets_nil
  | seen hz _ ih =>
    intro D hR hB hm hx
    exact ih hR hB ((meets_cons.mp hm).resolve_left (hB.not_meets hz hx)) hx
  | @visit z zs s t u hz h₁ h₂ ih₁ ih₂ =>
    intro D hR hB hm hx
    have htu : t ⊆ u := h₂.suffix.subset
    have hst : z :: s ⊆ t := h₁.suffix.subset
    have hs : s ⊆ z :: s := fun w hw => List.mem_cons_of_mem _ hw
    by_contra hxu
    have hxt : x ∉ t := fun hxt => hxu (htu hxt)
    have hxz : x ∉ z :: s := fun hxz => hxt (hst hxz)
    have hzx : ¬ Meets next D [z] x := by
      rw [meets_singleton]
      rintro (rfl | ⟨-, hm⟩)
      · exact hxz List.mem_cons_self
      · exact hxt (ih₁ (hR.mono hs htu).enter hB.enter hm.from_next hxz)
    exact hxu (ih₂ (hR.mono (fun w hw => hst (hs hw)) fun w hw => hw)
      (hB.rest (hR.mono (fun w hw => hw) htu) h₁ hz hzx)
      ((meets_cons.mp hm).resolve_left hzx) hxt)

/-- The order in which a walk visits two nodes of the region -/
theorem Walk.before_iff (h : Walk next zs s t) (hyx : y ≠ x) (hxC : x ∈ C) (hyC : y ∈ C) :
    ∀ {D : Set α}, Region next C D s t → Blocked next D s x → Blocked next D s y → x ∉ s → y ∉ s →
      (Earlier y x t ↔ Before next D y x zs) := by
  induction h with
  | nil s =>
    intro D _ _ _ _ hy
    refine iff_of_false (fun h => hy h.mem) ?_
    rintro ⟨⟩
  | @seen z zs s t hz _ ih =>
    intro D hR hx hy hxs hys
    rw [ih hR hx hy hxs hys]
    refine ⟨.later (hx.not_meets hz hxs), fun h => ?_⟩
    cases h with
    | here _ => exact absurd hz hys
    | into _ hzD h =>
      exact absurd (meets_singleton.mpr (.inr ⟨hzD, h.meets.mono Set.sdiff_subset⟩))
        (hy.not_meets hz hys)
    | later _ h => exact h
  | @visit z zs s t u hz h₁ h₂ ih₁ ih₂ =>
    intro D hR hx hy hxs hys
    have htu : t ⊆ u := h₂.suffix.subset
    have hst : z :: s ⊆ t := h₁.suffix.subset
    have hs : s ⊆ z :: s := fun w hw => List.mem_cons_of_mem _ hw
    by_cases hzy : z = y
    · subst hzy
      have : Earlier z x (z :: s) := .inr ⟨rfl, hxs⟩
      exact iff_of_true (this.of_suffix (h₁.suffix.trans h₂.suffix)) (.here hyx)
    by_cases hzx : z = x
    · subst hzx
      refine iff_of_false (fun h => ?_) (fun h => ?_)
      · obtain h | ⟨rfl, -⟩ := h.to_suffix (h₁.suffix.trans h₂.suffix) List.mem_cons_self
        · exact hys h.mem
        · exact hyx rfl
      · cases h with
        | here _ => exact hyx rfl
        | into hne _ _ => exact hne rfl
        | later hm _ => exact hm (.here (List.mem_singleton_self z))
    have hxz : x ∉ z :: s := List.not_mem_cons_of_ne_of_not_mem (Ne.symm hzx) hxs
    have hyz : y ∉ z :: s := List.not_mem_cons_of_ne_of_not_mem (Ne.symm hzy) hys
    have hRz : Region next C D (z :: s) t := hR.mono hs htu
    have hmem : ∀ v, v ∈ C → v ∉ z :: s → z ≠ v → Blocked next D s v →
        (v ∈ t ↔ Meets next D [z] v) := by
      intro v hvC hvz hzv hB
      rw [meets_singleton]
      constructor
      · intro hvt
        have hwalk : Walk next [z] s t := .visit hz h₁ (.nil t)
        obtain hvs | hm := hwalk.sound (hR.mono (fun w hw => hw) htu) v hvt hvC
        · exact absurd (hs hvs) hvz
        · exact meets_singleton.mp hm
      · rintro (rfl | ⟨hzD, hm⟩)
        · exact absurd rfl hzv
        · exact h₁.complete hRz.enter hB.enter hm.from_next hvz
    by_cases hzD : z ∈ D
    · have hfirst := ih₁ hRz.enter hx.enter hy.enter hxz hyz
      by_cases hearly : Earlier y x t
      · exact iff_of_true (hearly.of_suffix h₂.suffix) (.into hzx hzD (hfirst.mp hearly))
      · have hinto : ¬ Before next (D \ {z}) y x (next z) := fun h => hearly (hfirst.mpr h)
        by_cases hxt : x ∈ t
        · refine iff_of_false (fun h => hearly (h.to_suffix h₂.suffix hxt)) (fun h => ?_)
          cases h with
          | here _ => exact hzy rfl
          | into _ _ h => exact hinto h
          | later hm _ => exact hm ((hmem x hxC hxz hzx hx).mp hxt)
        · have hyt : y ∉ t := fun hyt => hearly (earlier_of_not_mem hyt hxt)
          have hmx : ¬ Meets next D [z] x := fun hm => hxt ((hmem x hxC hxz hzx hx).mpr hm)
          have hmy : ¬ Meets next D [z] y := fun hm => hyt ((hmem y hyC hyz hzy hy).mpr hm)
          have hRt : Region next C D s t := hR.mono (fun w hw => hw) htu
          rw [ih₂ (hR.mono (fun w hw => hst (hs hw)) fun w hw => hw) (hx.rest hRt h₁ hz hmx)
            (hy.rest hRt h₁ hz hmy) hxt hyt]
          refine ⟨.later hmx, fun h => ?_⟩
          cases h with
          | here _ => exact absurd rfl hzy
          | into _ _ h => exact absurd h hinto
          | later _ h => exact h
    · have hzC : z ∉ C := fun hzC => hz (hR.seen z hzC hzD)
      have hnone : ∀ v, v ≠ z → ¬ Meets next D [z] v := by
        intro v hv hm
        obtain rfl | ⟨hzD', -⟩ := meets_singleton.mp hm
        · exact hv rfl
        · exact hzD hzD'
      have hmx := hnone x (Ne.symm hzx)
      have hmy := hnone y (Ne.symm hzy)
      have hxt : x ∉ t := fun hxt => hmx ((hmem x hxC hxz hzx hx).mp hxt)
      have hyt : y ∉ t := fun hyt => hmy ((hmem y hyC hyz hzy hy).mp hyt)
      have hRt : Region next C D s t := hR.mono (fun w hw => hw) htu
      rw [ih₂ (hR.mono (fun w hw => hst (hs hw)) fun w hw => hw) (hx.rest hRt h₁ hz hmx)
        (hy.rest hRt h₁ hz hmy) hxt hyt]
      refine ⟨.later hmx, fun h => ?_⟩
      cases h with
      | here _ => exact absurd rfl hzy
      | into _ hzD' _ => exact absurd hzD' hzD
      | later _ h => exact h

/-! ## A walk into a new region -/

section

variable (h : Walk next zs s t) (hnew : ∀ v ∈ C, v ∉ s)
  (hout : ∀ v ∈ t, v ∉ s → v ∉ C → ∀ w ∈ next v, w ∉ C)

include h hnew hout

theorem Walk.mem_iff (hx : x ∈ C) : x ∈ t ↔ Meets next C zs x := by
  have hR : Region next C C s t := ⟨fun _ hv => hv, fun _ hv hv' => absurd hv hv', hout⟩
  refine ⟨fun hxt => (h.sound hR x hxt hx).resolve_left (hnew x hx), fun hm => ?_⟩
  exact h.complete hR (fun v hv hvC _ => hnew v hvC hv) hm (hnew x hx)

theorem Walk.earlier_iff (hx : x ∈ C) (hy : y ∈ C) (hyx : y ≠ x) :
    Earlier y x t ↔ Before next C y x zs :=
  h.before_iff hyx hx hy ⟨fun _ hv => hv, fun _ hv hv' => absurd hv hv', hout⟩
    (fun v hv hvC _ => hnew v hvC hv) (fun v hv hvC _ => hnew v hvC hv) (hnew x hx) (hnew y hy)

end

end DepthFirst
end Logic
end NReduce
