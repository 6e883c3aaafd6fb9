import Mathlib.Data.Option.Basic

/-!
# NReduce.Logic.Fuel

Functions with a bound on the depth of their calls. A bound that is too small gives `none`;
`Returns f a` says that every bound that is large enough gives `a`.
-/

namespace NReduce
namespace Logic

variable {α β : Type} {f g : Nat → Option α} {a : α}

def Returns (f : Nat → Option α) (a : α) : Prop := ∃ n, ∀ k, n ≤ k → f k = some a

theorem Returns.const (a : α) : Returns (fun _ => some a) a := ⟨0, fun _ _ => rfl⟩

theorem Returns.unique {b : α} (h : Returns f a) (h' : Returns f b) : a = b := by
  obtain ⟨n, hn⟩ := h
  obtain ⟨m, hm⟩ := h'
  have := (hn (n + m) (by omega)).symm.trans (hm (n + m) (by omega))
  exact Option.some.inj this

theorem Returns.congr (h : Returns g a) (hfg : ∀ k, f k = g k) : Returns f a := by
  obtain ⟨n, hn⟩ := h
  exact ⟨n, fun k hk => (hfg k).trans (hn k hk)⟩

/-- The call is one level deeper. -/
theorem Returns.succ (h : Returns g a) (hfg : ∀ k, f (k + 1) = g k) : Returns f a := by
  obtain ⟨n, hn⟩ := h
  refine ⟨n + 1, fun k hk => ?_⟩
  obtain ⟨j, rfl⟩ : ∃ j, k = j + 1 := ⟨k - 1, by omega⟩
  exact (hfg j).trans (hn j (by omega))

theorem Returns.bind {g : α → Nat → Option β} {b : β} (h : Returns f a) (h' : Returns (g a) b) :
    Returns (fun k => (f k).bind (g · k)) b := by
  obtain ⟨n, hn⟩ := h
  obtain ⟨m, hm⟩ := h'
  refine ⟨n + m, fun k hk => ?_⟩
  dsimp only
  rw [hn k (by omega)]
  exact hm k (by omega)

theorem Returns.map {b : β} {g : α → β} (h : Returns f a) (hb : g a = b) :
    Returns (fun k => (f k).map g) b := by
  obtain ⟨n, hn⟩ := h
  exact ⟨n, fun k hk => (congrArg (Option.map g) (hn k hk)).trans (congrArg some hb)⟩

/-! ## More fuel does not change a result -/

/-- What `o` gives, `o'` gives too. -/
def Extends (o o' : Option α) : Prop := ∀ a, o = some a → o' = some a

theorem Extends.refl (o : Option α) : Extends o o := fun _ h => h

theorem Extends.none (o : Option α) : Extends none o := by
  intro a h
  cases h

theorem Extends.map {o o' : Option α} (h : Extends o o') (g : α → β) :
    Extends (o.map g) (o'.map g) := by
  intro b hb
  obtain ⟨a, ha, hab⟩ := Option.map_eq_some_iff.mp hb
  exact Option.map_eq_some_iff.mpr ⟨a, h a ha, hab⟩

theorem Extends.bind {o o' : Option α} {g g' : α → Option β} (h : Extends o o')
    (hg : ∀ a, Extends (g a) (g' a)) : Extends (o.bind g) (o'.bind g') := by
  intro b hb
  obtain ⟨a, ha, hab⟩ := Option.bind_eq_some_iff.mp hb
  exact Option.bind_eq_some_iff.mpr ⟨a, h a ha, hg a b hab⟩

def Mono (f : Nat → Option α) : Prop := ∀ k, Extends (f k) (f (k + 1))

theorem Mono.const (o : Option α) : Mono fun _ => o := fun _ => .refl o

theorem Mono.map {g : α → β} (h : Mono f) : Mono fun k => (f k).map g :=
  fun k => (h k).map g

theorem Mono.bind {g : α → Nat → Option β} (h : Mono f) (hg : ∀ a, Mono (g a)) :
    Mono fun k => (f k).bind (g · k) :=
  fun k => (h k).bind fun a => hg a k

theorem Mono.le (h : Mono f) {j k : Nat} (hjk : j ≤ k) : Extends (f j) (f k) := by
  induction hjk with
  | refl => exact .refl _
  | step _ ih => exact fun a ha => h _ a (ih a ha)

theorem Mono.returns (h : Mono f) {k : Nat} (hk : f k = some a) : Returns f a :=
  ⟨k, fun _ hle => h.le hle a hk⟩

theorem Returns.of_bind {g : α → Nat → Option β} {b : β} (h : Mono f) (hg : ∀ a, Mono (g a))
    (hb : Returns (fun k => (f k).bind (g · k)) b) :
    ∃ a, Returns f a ∧ Returns (g a) b := by
  obtain ⟨n, hn⟩ := hb
  obtain ⟨a, ha, hab⟩ := Option.bind_eq_some_iff.mp (hn n (Nat.le_refl n))
  exact ⟨a, h.returns ha, (hg a).returns hab⟩

theorem Returns.of_map {g : α → β} {b : β} (h : Mono f)
    (hb : Returns (fun k => (f k).map g) b) : ∃ a, Returns f a ∧ g a = b := by
  obtain ⟨n, hn⟩ := hb
  obtain ⟨a, ha, hab⟩ := Option.map_eq_some_iff.mp (hn n (Nat.le_refl n))
  exact ⟨a, h.returns ha, hab⟩

end Logic
end NReduce
