import Mathlib.Computability.RegularExpressions

/-!
# NReduce.Logic.Lexing

Lexers that are given by rules with regular expressions. The rule that matches the longest beginning
of the text is taken, and among equals the first one.

* `oneOf`, `word`, `many`, `optional`: patterns, with the texts that they match.
* `longest`: the length of the longest beginning that a pattern matches; it is not empty.
* `choose`: the rule that is taken, and how much of the text it matches.
* `starts`: the letters that a match can begin with.
-/

namespace NReduce
namespace Logic
namespace Lexing

open RegularExpression

variable {α : Type} {P : RegularExpression α} {text : List α} {m n : Nat}

/-! ## Patterns -/

/-- One of the letters -/
def oneOf : List α → RegularExpression α
  | [] => 0
  | a :: l => char a + oneOf l

def word : List α → RegularExpression α
  | [] => 1
  | a :: l => char a * word l

def many (P : RegularExpression α) : RegularExpression α := P * P.star

def optional (P : RegularExpression α) : RegularExpression α := 1 + P

theorem mem_oneOf {l x : List α} : x ∈ (oneOf l).matches' ↔ ∃ a ∈ l, x = [a] := by
  induction l with
  | nil =>
    rw [oneOf, matches'_zero]
    simp [Language.notMem_zero]
  | cons a l ih =>
    rw [oneOf, matches'_add, Language.mem_add, ih]
    simp only [List.mem_cons, exists_eq_or_imp]
    rfl

theorem mem_word {w x : List α} : x ∈ (word w).matches' ↔ x = w := by
  induction w generalizing x with
  | nil => rw [word, matches'_epsilon, Language.mem_one]
  | cons a w ih =>
    rw [word, matches'_mul, Language.mem_mul, matches'_char]
    constructor
    · rintro ⟨y, rfl, z, hz, rfl⟩
      rw [ih.mp hz]
      rfl
    · rintro rfl
      exact ⟨[a], rfl, w, ih.mpr rfl, rfl⟩

theorem mem_star_oneOf {l x : List α} : x ∈ (oneOf l).star.matches' ↔ ∀ a ∈ x, a ∈ l := by
  rw [matches'_star, Language.mem_kstar]
  constructor
  · rintro ⟨L, rfl, hL⟩ a ha
    obtain ⟨y, hy, hay⟩ := List.mem_flatten.mp ha
    obtain ⟨b, hb, rfl⟩ := mem_oneOf.mp (hL y hy)
    rwa [List.mem_singleton.mp hay]
  · intro h
    refine ⟨x.map (fun a => [a]), ?_, fun y hy => ?_⟩
    · induction x with
      | nil => rfl
      | cons a x ih =>
        rw [List.map_cons, List.flatten_cons, ← ih fun b hb => h b (List.mem_cons_of_mem a hb)]
        rfl
    · obtain ⟨a, ha, rfl⟩ := List.mem_map.mp hy
      exact mem_oneOf.mpr ⟨a, h a ha, rfl⟩

theorem mem_many_oneOf {l x : List α} :
    x ∈ (many (oneOf l)).matches' ↔ x ≠ [] ∧ ∀ a ∈ x, a ∈ l := by
  rw [many, matches'_mul, Language.mem_mul]
  constructor
  · rintro ⟨y, hy, z, hz, rfl⟩
    obtain ⟨b, hb, rfl⟩ := mem_oneOf.mp hy
    refine ⟨List.cons_ne_nil _ _, fun a ha => ?_⟩
    obtain rfl | ha := List.mem_cons.mp ha
    · exact hb
    · exact mem_star_oneOf.mp hz a ha
  · rintro ⟨hne, h⟩
    cases x with
    | nil => exact absurd rfl hne
    | cons b x =>
      refine ⟨[b], mem_oneOf.mpr ⟨b, h b (List.mem_cons_self ..), rfl⟩, x, ?_, rfl⟩
      exact mem_star_oneOf.mpr fun a ha => h a (List.mem_cons_of_mem b ha)

/-! ## What a match begins with -/

variable [DecidableEq α]

def starts : RegularExpression α → α → Bool
  | .zero, _ => false
  | .epsilon, _ => false
  | .char a, c => a = c
  | .plus P Q, c => starts P c || starts Q c
  | .comp P Q, c => starts P c || (P.matchEpsilon && starts Q c)
  | .star P, c => starts P c

theorem matchEpsilon_of_nil_mem (h : [] ∈ P.matches') : P.matchEpsilon = true := by
  have hr := (rmatch_iff_matches' P []).mpr h
  exact hr

theorem starts_of_mem {c : α} {x : List α} (h : c :: x ∈ P.matches') : starts P c = true := by
  induction P generalizing x with
  | zero => exact absurd h (Language.notMem_zero _)
  | epsilon => exact absurd h (by rw [one_def, matches'_epsilon, Language.mem_one]; simp)
  | char a =>
    have hx : c :: x = [a] := h
    simp only [List.cons.injEq] at hx
    simp [starts, hx.1]
  | plus P Q ihP ihQ =>
    rw [plus_def, matches'_add, Language.mem_add] at h
    rw [starts, Bool.or_eq_true]
    exact h.imp ihP ihQ
  | comp P Q ihP ihQ =>
    rw [comp_def, matches'_mul, Language.mem_mul] at h
    rw [starts, Bool.or_eq_true]
    obtain ⟨y, hy, z, hz, hyz⟩ := h
    cases y with
    | nil =>
      rw [List.nil_append] at hyz
      subst hyz
      exact .inr (by rw [matchEpsilon_of_nil_mem hy, ihQ hz]; rfl)
    | cons b y =>
      obtain ⟨rfl, rfl⟩ := List.cons.inj hyz
      exact .inl (ihP hy)
  | star P ih =>
    rw [matches'_star, Language.mem_kstar] at h
    obtain ⟨L, hL, hmem⟩ := h
    -- the first part that is not empty begins with the letter
    induction L with
    | nil => cases hL
    | cons y L ihL =>
      cases y with
      | nil => exact ihL hL fun y hy => hmem y (List.mem_cons_of_mem _ hy)
      | cons b y =>
        obtain ⟨rfl, -⟩ := List.cons.inj hL
        exact ih (hmem _ (List.mem_cons_self ..))

theorem starts_oneOf (l : List α) (c : α) : starts (oneOf l) c = decide (c ∈ l) := by
  induction l with
  | nil => rfl
  | cons a l ih =>
    show (decide (a = c) || starts (oneOf l) c) = _
    rw [ih]
    simp only [List.mem_cons, Bool.decide_or, eq_comm]

theorem starts_many (P : RegularExpression α) (c : α) : starts (many P) c = starts P c := by
  show (starts P c || (P.matchEpsilon && starts P c)) = starts P c
  cases starts P c <;> simp

theorem starts_word_cons (a : α) (w : List α) (c : α) : starts (word (a :: w)) c = decide (a = c) := by
  show (decide (a = c) || (false && starts (word w) c)) = _
  rw [Bool.false_and, Bool.or_false]

/-! ## The longest match -/

def longestUpto (P : RegularExpression α) (text : List α) : Nat → Option Nat
  | 0 => none
  | n + 1 => if P.rmatch (text.take (n + 1)) then some (n + 1) else longestUpto P text n

def longest (P : RegularExpression α) (text : List α) : Option Nat :=
  longestUpto P text text.length

theorem longestUpto_spec (h : longestUpto P text m = some n) :
    0 < n ∧ n ≤ m ∧ text.take n ∈ P.matches' := by
  induction m with
  | zero => cases h
  | succ m ih =>
    rw [longestUpto] at h
    split at h
    · next hr =>
      cases h
      exact ⟨Nat.succ_pos m, Nat.le_refl _, (rmatch_iff_matches' P _).mp hr⟩
    · obtain ⟨h0, hle, hmem⟩ := ih h
      exact ⟨h0, Nat.le_succ_of_le hle, hmem⟩

theorem longest_spec (h : longest P text = some n) :
    0 < n ∧ n ≤ text.length ∧ text.take n ∈ P.matches' := longestUpto_spec h

theorem longestUpto_eq (h0 : 0 < n) (hn : n ≤ m) (hmem : text.take n ∈ P.matches')
    (hmax : ∀ k, n < k → k ≤ m → text.take k ∉ P.matches') : longestUpto P text m = some n := by
  induction m with
  | zero => omega
  | succ m ih =>
    rw [longestUpto]
    by_cases hnm : n = m + 1
    · subst hnm
      rw [if_pos ((rmatch_iff_matches' P _).mpr hmem)]
    · rw [if_neg fun hr => hmax (m + 1) (by omega) (Nat.le_refl _) ((rmatch_iff_matches' P _).mp hr)]
      exact ih (by omega) fun k hk hkm => hmax k hk (by omega)

theorem longest_eq (h0 : 0 < n) (hn : n ≤ text.length) (hmem : text.take n ∈ P.matches')
    (hmax : ∀ k, n < k → k ≤ text.length → text.take k ∉ P.matches') :
    longest P text = some n := longestUpto_eq h0 hn hmem hmax

/-- A pattern does not match a text that no match begins like. -/
theorem longest_of_not_starts {c : α} (h : starts P c = false) : longest P (c :: text) = none := by
  cases hl : longest P (c :: text) with
  | none => rfl
  | some n =>
    obtain ⟨h0, -, hmem⟩ := longest_spec hl
    obtain ⟨k, rfl⟩ : ∃ k, n = k + 1 := ⟨n - 1, by omega⟩
    rw [List.take_succ_cons] at hmem
    rw [starts_of_mem hmem] at h
    cases h

theorem longest_word {w rest : List α} (hw : w ≠ []) :
    longest (word w) (w ++ rest) = some w.length := by
  apply longest_eq (List.length_pos_iff.mpr hw)
  · rw [List.length_append]
    exact Nat.le_add_right _ _
  · rw [List.take_left]
    exact mem_word.mpr rfl
  · intro k hk hle hmem
    have hlen := congrArg List.length (mem_word.mp hmem)
    rw [List.length_take_of_le hle] at hlen
    omega

theorem longest_word_of_ne {w : List α} (h : ¬ w <+: text) : longest (word w) text = none := by
  cases hl : longest (word w) text with
  | none => rfl
  | some n =>
    obtain ⟨-, -, hmem⟩ := longest_spec hl
    rw [← mem_word.mp hmem] at h
    exact absurd (List.take_prefix n text) h

theorem longest_oneOf {l : List α} {c : α} (h : c ∈ l) : longest (oneOf l) (c :: text) = some 1 := by
  apply longest_eq Nat.one_pos
  · exact Nat.succ_pos _
  · exact mem_oneOf.mpr ⟨c, h, rfl⟩
  · intro k hk hle hmem
    obtain ⟨a, -, ha⟩ := mem_oneOf.mp hmem
    have hlen := congrArg List.length ha
    rw [List.length_take_of_le hle, List.length_singleton] at hlen
    omega

/-- A run of letters ends where the text does or at a letter of another kind. -/
theorem longest_many_oneOf {l p rest : List α} (hp : p ≠ []) (hl : ∀ a ∈ p, a ∈ l)
    (hrest : ∀ a ∈ rest.head?, a ∉ l) : longest (many (oneOf l)) (p ++ rest) = some p.length := by
  apply longest_eq (List.length_pos_iff.mpr hp)
  · rw [List.length_append]
    exact Nat.le_add_right _ _
  · rw [List.take_left]
    exact mem_many_oneOf.mpr ⟨hp, hl⟩
  · intro k hk hle hmem
    cases rest with
    | nil =>
      rw [List.append_nil] at hle
      omega
    | cons a rest =>
      obtain ⟨j, rfl⟩ : ∃ j, k = p.length + (j + 1) := ⟨k - p.length - 1, by omega⟩
      rw [List.take_length_add_append, List.take_succ_cons] at hmem
      exact hrest a rfl ((mem_many_oneOf.mp hmem).2 a (by simp))

/-! ## The choice of a rule -/

section

variable {ρ : Type} (pattern : ρ → RegularExpression α)

def choose (text : List α) : List ρ → Option (ρ × Nat)
  | [] => none
  | r :: rs =>
    match longest (pattern r) text, choose text rs with
    | some n, some (r', m) => if n < m then some (r', m) else some (r, n)
    | some n, none => some (r, n)
    | none, c => c

variable {pattern} {r : ρ} {pre post : List ρ}

theorem le_of_choose {rs : List ρ} (hmax : ∀ r' ∈ rs, ∀ k, longest (pattern r') text = some k → k ≤ n)
    (h : choose pattern text rs = some (r, m)) : m ≤ n := by
  induction rs generalizing r m with
  | nil => cases h
  | cons r' rs ih =>
    have htail : ∀ r' ∈ rs, ∀ k, longest (pattern r') text = some k → k ≤ n :=
      fun r'' hr => hmax r'' (List.mem_cons_of_mem _ hr)
    rw [choose] at h
    split at h
    · next k r'' m' hk hc =>
      split at h
      · cases h
        exact ih htail hc
      · cases h
        exact hmax _ (List.mem_cons_self ..) _ hk
    · next k hk hc =>
      cases h
      exact hmax _ (List.mem_cons_self ..) _ hk
    · exact ih htail h

theorem choose_eq (hr : longest (pattern r) text = some n)
    (hpre : ∀ r' ∈ pre, ∀ k, longest (pattern r') text = some k → k < n)
    (hpost : ∀ r' ∈ post, ∀ k, longest (pattern r') text = some k → k ≤ n) :
    choose pattern text (pre ++ r :: post) = some (r, n) := by
  induction pre with
  | nil =>
    rw [List.nil_append, choose, hr]
    cases hc : choose pattern text post with
    | none => rfl
    | some c =>
      obtain ⟨r', m⟩ := c
      exact if_neg (Nat.not_lt.mpr (le_of_choose hpost hc))
  | cons r' pre ih =>
    rw [List.cons_append, choose, ih fun r'' hr => hpre r'' (List.mem_cons_of_mem _ hr)]
    cases hk : longest (pattern r') text with
    | none => rfl
    | some k => exact if_pos (hpre r' (List.mem_cons_self ..) k hk)

end

end Lexing
end Logic
end NReduce
