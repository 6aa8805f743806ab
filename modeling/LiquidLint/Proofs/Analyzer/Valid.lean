import LiquidLint.Proofs.Analyzer.Alone
import LiquidLint.Proofs.Check.Valid
import LiquidLint.Proofs.Regex.Spans

/-!
# Offenses are valid and in order

Every offense that an analysis with built-in and declared checks records points into a file of the
theme, between two characters of its source, with the line and column of the place where it starts.
Patterns may be compiled by any engine whose matches lie between characters of the text it searches.
The edit that an offense carries takes away a part of the source. What is reported of the offenses is
sorted by path, start, end, line, column and check.
-/

namespace LiquidLint

/-! ### The order of offenses -/

namespace Offense

/-- One offense is not after another: by path, then by start, end, line, column and check. -/
def Precedes (a b : Offense) : Prop :=
  a.location.path.compare b.location.path = .lt ∨
  a.location.path.compare b.location.path = .eq ∧ (a.location.start < b.location.start ∨
  a.location.start = b.location.start ∧ (a.location.stop < b.location.stop ∨
  a.location.stop = b.location.stop ∧ (a.location.line < b.location.line ∨
  a.location.line = b.location.line ∧ (a.location.column < b.location.column ∨
  a.location.column = b.location.column ∧ a.check ≤ b.check))))

theorem isLE_then_iff {x y : Ordering} :
    (x.then y).isLE = true ↔ x = .lt ∨ x = .eq ∧ y.isLE = true := by
  cases x <;> simp [Ordering.then]

/-- Offenses are compared key by key. -/
theorem le_iff_precedes {a b : Offense} : a.le b = true ↔ a.Precedes b := by
  have hcheck : (Ord.compare a.check b.check).isLE = true ↔ a.check ≤ b.check :=
    isLE_compareOfLessAndEq String.le_antisymm String.not_le String.le_total
  unfold le Location.compare Precedes
  simp only [Ordering.then_assoc, isLE_then_iff, Nat.compare_eq_lt, Nat.compare_eq_eq, hcheck]

end Offense

namespace Analyzer

variable {a : Analyzer} {o : Offense}

/-- An offense of a report is recorded by a check. -/
theorem exists_instance_of_reported (hfresh : a.Fresh) (ho : o ∈ a.analyze.offenses) :
    ∃ i ∈ a.analyze.instances, o ∈ i.offenses := by
  obtain ⟨⟨i, hi, f, hf, rfl⟩, -⟩ := (mem_offenses_analyze hfresh).1 ho
  rw [instances_analyze hfresh]
  refine ⟨i.run a.theme.events, List.mem_map.2 ⟨i, hi, rfl⟩, ?_⟩
  exact List.mem_map.2 ⟨f, hf, rfl⟩

theorem pairwise_analyze (hfresh : a.Fresh) :
    a.analyze.offenses.Pairwise fun o p => o.le p = true := by
  have htrans : ∀ o p q : Offense, o.le p = true → p.le q = true → o.le q = true :=
    fun _ _ _ => Offense.le_trans
  rw [offenses_analyze hfresh]
  exact List.pairwise_mergeSort htrans Offense.le_total a.reported

/-- **Offenses point into the theme.** All that is asked of the engine is that declared checks search
within their texts. Then every offense that a built-in or declared check records in an analysis names a
file of the theme, and its offsets are in order, inside the source of that file and between two
characters. Its line and column are those of its start, and an edit takes away bytes of the same
source, in order and from one character on to another. The offenses that are reported are among these,
sorted by path, start, end, line, column and check. The analyzer may be new or have been called before,
as calls leave no stale cell. -/
theorem analyze_valid (hfresh : a.Fresh) (hstandard : ∀ i ∈ a.instances, i.check.IsStandard)
    (hsearch : ∀ i ∈ a.instances, i.check.SearchesWithin) :
    (∀ i ∈ a.analyze.instances, ∀ o ∈ i.offenses, ∃ file ∈ a.theme.files,
      o.location.path = file.relativePath ∧
      o.location.span.Within file.source ∧
      ⟨o.location.line, o.location.column⟩ = file.source.position o.location.start ∧
      ∀ c, o.correction = some c → c.range.Within file.source) ∧
    (∀ o ∈ a.analyze.offenses, ∃ i ∈ a.analyze.instances, o ∈ i.offenses) ∧
    a.analyze.offenses.Pairwise Offense.Precedes := by
  refine ⟨fun i hi o ho => ?_, fun o ho => exists_instance_of_reported hfresh ho, ?_⟩
  · -- an offense of an instance is a finding of its check, located in a file
    rw [instances_analyze hfresh] at hi
    obtain ⟨j, hj, rfl⟩ := List.mem_map.1 hi
    obtain ⟨f, hf, rfl⟩ := List.mem_map.1 ho
    obtain ⟨file, hfile, hvalid⟩ := (hstandard j hj).valid_of_mem_run (hsearch j hj) hf
    obtain ⟨span, hspan, hlocation⟩ := hvalid.location
    have hlocated : (j.offense f).location = file.locate span := hlocation
    refine ⟨file, hfile, ?_, ?_, ?_, hvalid.correction⟩
    · rw [hlocated]
      rfl
    · rw [hlocated]
      exact hspan
    · rw [hlocated]
      rfl
  · exact (pairwise_analyze hfresh).imp Offense.le_iff_precedes.1

/-- A keyword behind characters of two bytes, and a match at the end of the text. -/
theorem analyze_valid_wide :
    let source : Text := "é\x7b%include 'é'%\x7d\né".toList
    let theme : Theme := ⟨⟨"."⟩, [⟨⟨⟨"a.liquid"⟩, source⟩, ⟨"a.liquid"⟩⟩], []⟩
    let letters : PatternCheck := ⟨"Letters", .liquid, "", .style, "a letter",
      Regex.spans (.set .word), ["text"]⟩
    let a := new theme [.spaceInsideBraces, .convertIncludeToRender, .pattern letters]
      (fun _ => none) false
    a.analyze.instances.flatMap (fun i => i.offenses.map fun o =>
        (o.location.span, o.location.line, o.location.column, o.correction.map (·.range))) =
      [(⟨4, 4⟩, 1, 4, some ⟨4, 4⟩), (⟨16, 16⟩, 1, 15, some ⟨16, 16⟩), (⟨2, 18⟩, 1, 2, some ⟨4, 11⟩),
        (⟨0, 2⟩, 1, 1, none), (⟨19, 21⟩, 2, 1, none)] ∧
      (∀ i ∈ a.analyze.instances, ∀ o ∈ i.offenses, ∃ file ∈ a.theme.files,
        o.location.path = file.relativePath ∧ o.location.span.Within file.source ∧
        ⟨o.location.line, o.location.column⟩ = file.source.position o.location.start ∧
        ∀ c, o.correction = some c → c.range.Within file.source) ∧
      a.analyze.offenses.Pairwise Offense.Precedes := by
  intro source theme letters a
  have hfresh : a.Fresh := fresh_new ..
  have hstandard : ∀ i ∈ a.instances, i.check.IsStandard := by
    intro i hi
    have hcheck := (of_mem_instances_new hi).1
    simp only [List.mem_cons, List.not_mem_nil, or_false] at hcheck
    rcases hcheck with h | h | h <;> rw [h] <;> trivial
  have hsearch : ∀ i ∈ a.instances, i.check.SearchesWithin := by
    intro i hi
    have hcheck := (of_mem_instances_new hi).1
    simp only [List.mem_cons, List.not_mem_nil, or_false] at hcheck
    rcases hcheck with h | h | h <;> rw [h]
    · trivial
    · trivial
    · exact fun _ _ hs => Regex.within_of_mem_spans hs
  have hvalid := analyze_valid hfresh hstandard hsearch
  refine ⟨?_, hvalid.1, hvalid.2.2⟩
  rw [instances_analyze hfresh]
  decide +kernel

end Analyzer

end LiquidLint
