import LiquidLint.Path

/-!
# The order of paths

Paths are compared by their components, and the order of components is that of their ranks, then that
of their names. It is a linear order, and two paths are equal in it exactly when they have the same
components (`compare_eq_iff`).
-/

namespace LiquidLint

/-- Things are ordered by what orders one of their parts. -/
theorem transCmp_on {α β : Type} (cmp : β → β → Ordering) [Std.TransCmp cmp] (f : α → β) :
    Std.TransCmp fun a b => cmp (f a) (f b) where
  eq_swap := Std.OrientedCmp.eq_swap
  isLE_trans := Std.TransCmp.isLE_trans

namespace Path

/-- The name of a component; none for the others. -/
def Component.label : Component → String
  | .name s => s
  | _ => ""

theorem Component.compare_eq_lex :
    Component.compare = compareLex (compareOn Component.rank) (compareOn Component.label) := by
  funext a b
  cases a <;> cases b <;>
    simp [Component.compare, compareLex, compareOn, Component.rank, Component.label] <;> rfl

instance : Std.TransCmp Component.compare := by
  rw [Component.compare_eq_lex]
  infer_instance

instance : Std.LawfulEqCmp Component.compare where
  compare_self := Std.ReflCmp.compare_self
  eq_of_compare := by
    intro a b h
    rw [Component.compare_eq_lex, compareLex_eq_eq] at h
    have hrank : a.rank = b.rank := Nat.compare_eq_eq.1 h.1
    have hlabel : a.label = b.label := Std.LawfulEqCmp.eq_of_compare h.2
    cases a <;> cases b <;> simp_all [Component.rank, Component.label]

theorem compareComponents_eq_lex : compareComponents = List.compareLex Component.compare := by
  funext as bs
  induction as generalizing bs with
  | nil => cases bs <;> rfl
  | cons a as ih =>
    cases bs with
    | nil => rfl
    | cons b bs => rw [compareComponents, ih, List.compareLex_cons_cons]

instance : Std.TransCmp compareComponents := by
  rw [compareComponents_eq_lex]
  infer_instance

instance : Std.LawfulEqCmp compareComponents := by
  rw [compareComponents_eq_lex]
  infer_instance

variable {p q r : Path}

theorem same_iff : p.same q = true ↔ p.components = q.components := by
  unfold same
  rw [beq_iff_eq]

/-- Paths that are equal in the order have the same components. -/
theorem compare_eq_iff : p.compare q = .eq ↔ p.components = q.components :=
  @Std.LawfulEqCmp.compare_eq_iff_eq _ compareComponents _ _ _

instance : Std.TransCmp compare := transCmp_on compareComponents components

theorem compare_trans (h1 : p.compare q = .lt) (h2 : q.compare r = .lt) : p.compare r = .lt :=
  @Std.TransCmp.lt_trans _ compareComponents _ _ _ _ h1 h2

theorem compare_lt_of_gt (h : p.compare q = .gt) : q.compare p = .lt :=
  @Std.OrientedCmp.lt_of_gt _ compareComponents _ _ _ h

theorem le_trans (h1 : p.le q = true) (h2 : q.le r = true) : p.le r = true :=
  @Std.TransCmp.isLE_trans _ compare _ _ _ _ h1 h2

theorem le_total (p q : Path) : (p.le q || q.le p) = true := by
  have hswap : q.compare p = (p.compare q).swap := Std.OrientedCmp.eq_swap
  unfold le
  rw [hswap]
  cases p.compare q <;> rfl

theorem components_eq_of_le (h1 : p.le q = true) (h2 : q.le p = true) :
    p.components = q.components := by
  have hswap : q.compare p = (p.compare q).swap := Std.OrientedCmp.eq_swap
  unfold le at h1 h2
  rw [hswap] at h2
  rw [← compare_eq_iff]
  cases hcompare : p.compare q with
  | eq => rfl
  | lt => simp [hcompare] at h2
  | gt => simp [hcompare] at h1

/-- What two lists of components start with has no say in their order. -/
theorem compareComponents_append (front as bs : List Component) :
    compareComponents (front ++ as) (front ++ bs) = compareComponents as bs := by
  induction front with
  | nil => rfl
  | cons c front ih =>
    have hself : c.compare c = .eq := Std.ReflCmp.compare_self
    rw [List.cons_append, List.cons_append, compareComponents, hself, ih]
    rfl

end Path

end LiquidLint
