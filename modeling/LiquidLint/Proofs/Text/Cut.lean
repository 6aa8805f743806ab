import LiquidLint.Text.Blank
import LiquidLint.Text.Line
import Mathlib.Data.List.Basic
import Mathlib.Tactic.Common

/-!
# Offsets and cuts

A byte offset into a text stands for a way to write the text as two parts: `splitAt?_eq_some_iff`
says that cutting at `n` gives exactly the parts whose first one is `n` bytes long, and
`slice?_append` reads a middle part back. The cuts at characters are characterised in the same way:
`dropStart?_eq_some_iff`, `dropStop?_eq_some_iff`, and `cut?_pair` for the first place where a pair of
characters stands.
-/

namespace LiquidLint.Text

/-! ### Sizes -/

@[simp] theorem size_nil : size [] = 0 := rfl

@[simp] theorem size_cons (c : Char) (t : Text) : size (c :: t) = c.utf8Size + size t := rfl

@[simp] theorem size_append (s t : Text) : size (s ++ t) = size s + size t := by
  induction s with
  | nil => simp
  | cons c s ih => rw [List.cons_append, size_cons, size_cons, ih, Nat.add_assoc]

@[simp] theorem size_reverse (t : Text) : size t.reverse = size t := by
  induction t with
  | nil => rfl
  | cons c t ih => rw [List.reverse_cons, size_append, ih, size_cons, size_cons, size_nil]; omega

/-- A text that is not empty takes up at least one byte. -/
theorem size_pos {t : Text} (h : t ≠ []) : 0 < size t := by
  cases t with
  | nil => exact absurd rfl h
  | cons c t => rw [size_cons]; have := c.utf8Size_pos; omega

theorem eq_nil_of_size {t : Text} (h : size t = 0) : t = [] := by
  by_contra hne
  have := size_pos hne
  omega

@[simp] theorem newlines_append (s t : Text) : newlines (s ++ t) = newlines s + newlines t :=
  List.count_append

/-! ### Cutting at offsets -/

theorem splitAt?_append (l r : Text) : splitAt? (l ++ r) (size l) = some (l, r) := by
  induction l with
  | nil => cases r <;> rfl
  | cons c l ih =>
    have hc := c.utf8Size_pos
    obtain ⟨n, hn⟩ : ∃ n, size (c :: l) = n + 1 :=
      ⟨size (c :: l) - 1, by rw [size_cons]; omega⟩
    have hl : n + 1 - c.utf8Size = size l := by rw [← hn, size_cons]; omega
    have hle : c.utf8Size ≤ n + 1 := by rw [← hn, size_cons]; omega
    rw [hn, List.cons_append, splitAt?, if_pos hle, hl, ih]
    rfl

/-- **Cutting at an offset**: the parts are those whose first one has that size. -/
theorem splitAt?_eq_some_iff {t l r : Text} {n : Nat} :
    splitAt? t n = some (l, r) ↔ t = l ++ r ∧ size l = n := by
  constructor
  · intro h
    induction t generalizing n l with
    | nil =>
      cases n with
      | zero => simp only [splitAt?, Option.some.injEq, Prod.mk.injEq] at h; simp [← h.1, ← h.2]
      | succ n => simp [splitAt?] at h
    | cons c t ih =>
      cases n with
      | zero => simp only [splitAt?, Option.some.injEq, Prod.mk.injEq] at h; simp [← h.1, ← h.2]
      | succ n =>
        rw [splitAt?] at h
        split at h
        · rename_i hle
          obtain ⟨⟨l', r'⟩, hs, he⟩ := Option.map_eq_some_iff.1 h
          simp only [Prod.mk.injEq] at he
          obtain ⟨rfl, rfl⟩ := he
          obtain ⟨rfl, hsize⟩ := ih hs
          exact ⟨rfl, by rw [size_cons]; omega⟩
        · exact absurd h (by simp)
  · rintro ⟨rfl, rfl⟩
    exact splitAt?_append l r

/-- Of two first parts of a text the shorter one starts the longer one. -/
theorem exists_append_of_size_le {l l' r r' : Text} (h : l ++ r = l' ++ r')
    (hs : size l ≤ size l') : ∃ m, l' = l ++ m ∧ r = m ++ r' := by
  rcases List.append_eq_append_iff.1 h with ⟨m, h1, h2⟩ | ⟨m, h1, h2⟩
  · exact ⟨m, h1, h2⟩
  · have hm : m = [] := by
      apply eq_nil_of_size
      rw [h1, size_append] at hs
      omega
    subst hm
    exact ⟨[], by simpa using h1.symm, by simpa using h2.symm⟩

theorem isBoundary_append (l r : Text) : isBoundary (l ++ r) (size l) = true := by
  rw [isBoundary, splitAt?_append]
  rfl

theorem isBoundary_iff {t : Text} {n : Nat} :
    isBoundary t n = true ↔ ∃ l r, t = l ++ r ∧ size l = n := by
  rw [isBoundary, Option.isSome_iff_exists]
  constructor
  · rintro ⟨⟨l, r⟩, h⟩
    exact ⟨l, r, splitAt?_eq_some_iff.1 h⟩
  · rintro ⟨l, r, h⟩
    exact ⟨(l, r), splitAt?_eq_some_iff.2 h⟩

/-- **Reading a middle part back** from the offsets of its ends. -/
theorem slice?_append (p m q : Text) {a b : Nat} (ha : a = size p) (hb : b = size p + size m) :
    slice? (p ++ (m ++ q)) ⟨a, b⟩ = some m := by
  subst ha hb
  have h1 : splitAt? (p ++ (m ++ q)) (size p) = some (p, m ++ q) := splitAt?_append p _
  have h2 : size p + size m - size p = size m := by omega
  simp only [slice?, h1, h2, splitAt?_append, if_pos (Nat.le_add_right _ _), Option.map_some]

/-! ### Parts of a text -/

/-- In `source` the part `t` stands at an offset. -/
def Stands (source : Text) (offset : Nat) (t : Text) : Prop :=
  ∃ pre post, source = pre ++ (t ++ post) ∧ offset = size pre

theorem stands_self (source : Text) : Stands source 0 source := ⟨[], [], by simp, rfl⟩

theorem Stands.left {source s t : Text} {offset : Nat} (h : Stands source offset (s ++ t)) :
    Stands source offset s := by
  obtain ⟨pre, post, rfl, rfl⟩ := h
  exact ⟨pre, t ++ post, by simp, rfl⟩

theorem Stands.right {source s t : Text} {offset : Nat} (h : Stands source offset (s ++ t)) :
    Stands source (offset + size s) t := by
  obtain ⟨pre, post, rfl, rfl⟩ := h
  exact ⟨pre ++ s, post, by simp, by simp⟩

theorem Stands.isBoundary {source t : Text} {offset : Nat} (h : Stands source offset t) :
    isBoundary source offset = true := by
  obtain ⟨pre, post, rfl, rfl⟩ := h
  exact isBoundary_append _ _

theorem Stands.slice? {source t : Text} {offset : Nat} (h : Stands source offset t) :
    slice? source ⟨offset, offset + size t⟩ = some t := by
  obtain ⟨pre, post, rfl, rfl⟩ := h
  exact slice?_append pre t post rfl rfl

theorem Stands.slice {source t : Text} {offset : Nat} (h : Stands source offset t) :
    slice source ⟨offset, offset + size t⟩ = t := by
  rw [Text.slice, h.slice?]
  rfl

/-! ### Cutting at characters -/

theorem dropStart?_eq_some_iff {p t r : Text} : dropStart? p t = some r ↔ t = p ++ r := by
  induction p generalizing t with
  | nil => simp [dropStart?]
  | cons a p ih =>
    cases t with
    | nil => simp [dropStart?]
    | cons c t =>
      rw [dropStart?]
      by_cases h : a = c
      · subst h
        rw [if_pos rfl, ih]
        simp
      · rw [if_neg h]
        simp only [reduceCtorEq, List.cons_append, List.cons.injEq, false_iff, not_and]
        exact fun hc => absurd hc.symm h

theorem dropStart?_append (p r : Text) : dropStart? p (p ++ r) = some r :=
  dropStart?_eq_some_iff.2 rfl

theorem dropStart?_eq_none_iff {p t : Text} : dropStart? p t = none ↔ ¬ p <+: t := by
  rw [Option.eq_none_iff_forall_ne_some]
  constructor
  · rintro h ⟨r, rfl⟩
    exact h r (dropStart?_append p r)
  · intro h r hr
    exact h ⟨r, (dropStart?_eq_some_iff.1 hr).symm⟩

theorem dropStop?_eq_some_iff {p t r : Text} : dropStop? p t = some r ↔ t = r ++ p := by
  rw [dropStop?, Option.map_eq_some_iff]
  constructor
  · rintro ⟨u, hu, rfl⟩
    have h := congrArg List.reverse (dropStart?_eq_some_iff.1 hu)
    simpa using h
  · rintro rfl
    refine ⟨r.reverse, ?_, List.reverse_reverse r⟩
    rw [List.reverse_append, dropStart?_append]

/-- A pair of characters stands in a text only where it stands in one of two parts, unless it
straddles them. -/
theorem pair_infix_append {a b : Char} {s t : Text} (h : [a, b] <:+: s ++ t) :
    [a, b] <:+: s ∨ [a, b] <:+: t ∨ (s.getLast? = some a ∧ t.head? = some b) := by
  obtain ⟨u, v, huv⟩ := h
  rw [List.append_assoc] at huv
  rcases List.append_eq_append_iff.1 huv with ⟨m, rfl, h2⟩ | ⟨m, rfl, h2⟩
  · -- the pair starts inside `s`
    match m, h2 with
    | [], h2 => exact Or.inr (Or.inl ⟨[], v, by simpa using h2⟩)
    | [x], h2 =>
      simp only [List.cons_append, List.nil_append, List.cons.injEq] at h2
      obtain ⟨rfl, h2⟩ := h2
      exact Or.inr (Or.inr ⟨by simp, by rw [← h2]; rfl⟩)
    | x :: y :: m, h2 =>
      simp only [List.cons_append, List.nil_append, List.cons.injEq] at h2
      obtain ⟨rfl, rfl, -⟩ := h2
      exact Or.inl ⟨u, m, by simp⟩
  · exact Or.inr (Or.inl ⟨m, v, by rw [h2, List.append_assoc]⟩)

/-- **Cutting at the first pair**: the pair stands after the first part and nowhere earlier. -/
theorem cut?_pair {a b : Char} {l r : Text} (h : ¬ [a, b] <:+: l ++ [a]) :
    cut? [a, b] (l ++ a :: b :: r) = some (l, r) := by
  induction l with
  | nil =>
    have h1 : dropStart? [a, b] (a :: b :: r) = some r := dropStart?_append [a, b] r
    rw [List.nil_append, cut?, h1]
  | cons c l ih =>
    -- the pair cannot start at `c`: with `a` behind `l` it would be a pair before the end
    have h1 : dropStart? [a, b] (c :: (l ++ a :: b :: r)) = none := by
      rw [dropStart?_eq_none_iff]
      rintro ⟨u, hu⟩
      simp only [List.cons_append, List.nil_append, List.cons.injEq] at hu
      obtain ⟨rfl, hu⟩ := hu
      apply h
      cases l with
      | nil =>
        simp only [List.nil_append, List.cons.injEq] at hu
        obtain ⟨rfl, -⟩ := hu
        exact ⟨[], [], rfl⟩
      | cons d l =>
        simp only [List.cons_append, List.cons.injEq] at hu
        obtain ⟨rfl, -⟩ := hu
        exact ⟨[], l ++ [a], rfl⟩
    have h2 : cut? [a, b] (l ++ a :: b :: r) = some (l, r) :=
      ih fun hp => h (hp.trans (List.suffix_cons c _).isInfix)
    rw [List.cons_append, cut?, h1, h2]
    rfl

end LiquidLint.Text
