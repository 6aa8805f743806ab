import LiquidLint.Proofs.Check.Reason
import LiquidLint.Proofs.Edit.Nodes

/-!
# What the correcting checks report about a template

Three checks attach corrections to what they report. Two of them look at each node on its own, and
the third keeps a ledger of assignments that is started anew with every document. For each of them
the reports about a template are given by the nodes of its tree: `mem_run_spacing`,
`mem_run_outdated`, and `exists_of_mem_run_unused` for the assignments.
-/

namespace LiquidLint

open Liquid (Node)

/-! ### Runs of checks -/

namespace Check

theorem run_append (c : Check) (es fs : List Event) :
    c.run (es ++ fs) =
      (((c.run es).1.run fs).1, (c.run es).2 ++ ((c.run es).1.run fs).2) := by
  induction es generalizing c with
  | nil => rfl
  | cons e es ih => simp only [List.cons_append, run, ih, List.append_assoc]

/-- A check without memory reports at each event on its own. -/
theorem run_eq_flatMap {c : Check} (h : ∀ e, c.next e = c) (es : List Event) :
    c.run es = (c, es.flatMap c.findings) := by
  induction es with
  | nil => rfl
  | cons e es ih => rw [run, h e, ih, List.flatMap_cons]

end Check

variable {t : Template} {root : Node} {f : Finding}

theorem Template.events_of_root (h : t.root = .ok root) :
    t.events = root.hooks.map (fun (hook, n) => Event.node hook n t) ++ [.afterTemplate t] := by
  rw [Template.events, Template.eventsOf, h]
  rfl

theorem Template.events_of_error {e : Liquid.ParseError} (h : t.root = .error e) :
    t.events = [.onError e t, .afterTemplate t] := by
  rw [Template.events, Template.eventsOf, h]
  rfl

theorem onNode_mem_opening (n : Node) : NodeHook.onNode ∈ n.opening := by
  unfold Node.opening
  split <;> simp

theorem onType_mem_opening (n : Node) : NodeHook.onType ∈ n.opening := by
  unfold Node.opening
  split <;> simp

/-- What a check without memory reports about a template, when it looks at one hook only. -/
theorem mem_flatMap_events {findings : Event → List Finding} {hook : NodeHook}
    (h : t.root = .ok root) (hhook : ∀ n : Node, hook ∈ n.opening)
    (hother : ∀ hook' n, hook' ≠ hook → findings (.node hook' n t) = [])
    (hafter : findings (.afterTemplate t) = []) :
    f ∈ t.events.flatMap findings ↔ ∃ n ∈ root.descendants, f ∈ findings (.node hook n t) := by
  rw [Template.events_of_root h, List.flatMap_append, List.mem_append, List.flatMap_cons, hafter]
  simp only [List.flatMap_nil, List.append_nil, List.not_mem_nil, or_false, List.mem_flatMap,
    List.mem_map, Prod.exists]
  constructor
  · rintro ⟨_, ⟨hook', n, hmem, rfl⟩, hf⟩
    by_cases he : hook' = hook
    · subst he
      exact ⟨n, ((Edit.mem_hooks_iff _ n root).1 hmem).1, hf⟩
    · rw [hother hook' n he] at hf
      cases hf
  · rintro ⟨n, hn, hf⟩
    exact ⟨_, ⟨hook, n, (Edit.mem_hooks_iff _ n root).2 ⟨hn, Or.inl (hhook n)⟩, rfl⟩, hf⟩

/-- **White space** is reported at the nodes of the tree. -/
theorem mem_run_spacing (h : t.root = .ok root) :
    f ∈ (Check.spaceInsideBraces.run t.events).2 ↔ ∃ n ∈ root.descendants,
      ∃ g ∈ Spacing.faults n t.source,
        f = t.toSourceFile.finding g.span g.message (some g.correction) := by
  rw [Check.run_eq_flatMap (fun _ => rfl),
    mem_flatMap_events h onNode_mem_opening (fun hook n hne => by
      cases hook <;> first | exact absurd rfl hne | rfl) rfl]
  refine exists_congr fun n => and_congr_right fun _ => Check.mem_findings_iff.trans ⟨?_, ?_⟩
  · intro h
    cases h with
    | spaceInsideBraces hg => exact ⟨_, hg, rfl⟩
  · rintro ⟨g, hg, rfl⟩
    exact .spaceInsideBraces hg

/-- **Outdated names** are reported at the nodes of the tree. -/
theorem mem_run_outdated (h : t.root = .ok root) :
    f ∈ (Check.convertIncludeToRender.run t.events).2 ↔
      ∃ n ∈ root.descendants, n.typeName = "include" ∧
        f = t.toSourceFile.finding n.span "`include` is deprecated - convert it to `render`"
          ((References.includeKeyword? n t.source).map (Correction.replace · "render")) := by
  rw [Check.run_eq_flatMap (fun _ => rfl),
    mem_flatMap_events h onType_mem_opening (fun hook n hne => by
      cases hook <;> first | exact absurd rfl hne | rfl) rfl]
  refine exists_congr fun n => and_congr_right fun _ => Check.mem_findings_iff.trans ⟨?_, ?_⟩
  · intro h
    cases h with
    | convertIncludeToRender hname => exact ⟨hname, rfl⟩
  · rintro ⟨hname, rfl⟩
    exact .convertIncludeToRender hname

/-! ### Assignments -/

namespace Assignments

/-- The assignments in a ledger are those of `assign` tags among some nodes. -/
def Ledger.Within (l : Ledger) (nodes : List Node) : Prop :=
  ∀ p ∈ l.assigned, ∃ n ∈ nodes, n.typeName = "assign" ∧ n.span = p.2

variable {l : Ledger} {nodes : List Node} {n : Node}

theorem Ledger.Within.assign (h : l.Within nodes) (hn : n ∈ nodes) (hname : n.typeName = "assign")
    (arguments : Text) : (l.assign arguments n.span).Within nodes := by
  unfold Ledger.assign
  split
  · exact h
  · intro p hp
    simp only [Ledger.use] at hp
    split at hp
    · exact h p hp
    · rcases List.mem_cons.1 hp with rfl | hp
      · exact ⟨n, hn, hname, rfl⟩
      · exact h p hp

theorem Ledger.Within.next (h : l.Within nodes) (hn : n ∈ nodes) (hook : NodeHook) (t : Template) :
    (l.next (.node hook n t)).Within nodes := by
  cases hook with
  | onType =>
    simp only [Ledger.next, Ledger.visit]
    split
    · intro p hp
      cases hp
    · rename_i hname
      exact h.assign hn hname _
    · exact h
    · exact h
    · exact h
  | _ => exact h

theorem Ledger.mem_assigned_of_mem_unused {p : String × Span} (h : p ∈ l.unused) :
    p ∈ l.assigned := by
  unfold Ledger.unused at h
  split at h
  · cases h
  · exact List.mem_reverse.1 (List.mem_filter.1 h).1

/-- Only assignments of the ledger are reported. -/
theorem exists_of_mem_findings (h : l.Within nodes) {hook : NodeHook} {t : Template}
    (hf : f ∈ findings l (.node hook n t)) :
    ∃ n ∈ nodes, n.typeName = "assign" ∧
      ∃ message, f = t.toSourceFile.finding n.span message (some (.delete n.span)) := by
  cases (Check.mem_findings_iff (c := .unusedAssign l)).1 hf with
  | unusedAssign _ hp =>
    obtain ⟨n, hn, hname, hspan⟩ := h _ (Ledger.mem_assigned_of_mem_unused hp)
    rw [← hspan]
    exact ⟨n, hn, hname, _, rfl⟩

/-- **A run over nodes** reports assignments of these nodes only. -/
theorem exists_of_mem_run (h : l.Within nodes) {t : Template} {hooks : List (NodeHook × Node)}
    (hhooks : ∀ p ∈ hooks, p.2 ∈ nodes)
    (hf : f ∈ ((Check.unusedAssign l).run
      (hooks.map (fun (hook, n) => Event.node hook n t) ++ [.afterTemplate t])).2) :
    ∃ n ∈ nodes, n.typeName = "assign" ∧
      ∃ message, f = t.toSourceFile.finding n.span message (some (.delete n.span)) := by
  induction hooks generalizing l with
  | nil => cases hf
  | cons p hooks ih =>
    obtain ⟨hook, n⟩ := p
    rw [List.map_cons, List.cons_append, Check.run, List.mem_append] at hf
    obtain ⟨hn, hhooks⟩ := List.forall_mem_cons.1 hhooks
    rcases hf with hf | hf
    · exact exists_of_mem_findings h hf
    · exact ih (h.next hn hook t) hhooks hf

end Assignments

/-- The ledger is started anew at the document, so what was in it before does not matter. -/
theorem exists_run_unused (h : t.root = .ok root) (hkind : root.kind = .document) :
    ∃ hooks : List (NodeHook × Node), (∀ p ∈ hooks, p.2 ∈ root.descendants) ∧
      ∀ l, ((Check.unusedAssign l).run t.events).2 = ((Check.unusedAssign .empty).run
        (hooks.map (fun (hook, n) => Event.node hook n t) ++ [.afterTemplate t])).2 := by
  obtain ⟨kind, span, markup, children⟩ := root
  obtain rfl : kind = .document := hkind
  have hhooks : ∃ later, Node.hooks ⟨.document, span, markup, children⟩ =
      (.onNode, ⟨.document, span, markup, children⟩) ::
        (.onType, ⟨.document, span, markup, children⟩) :: later := ⟨_, rfl⟩
  obtain ⟨later, hlater⟩ := hhooks
  refine ⟨later, fun p hp => ?_, fun l => ?_⟩
  · refine ((Edit.mem_hooks_iff p.1 p.2 _).1 ?_).1
    rw [hlater]
    exact List.mem_cons_of_mem _ (List.mem_cons_of_mem _ hp)
  · rw [Template.events_of_root h, hlater]
    rfl

/-- **Unused assignments** are reported at nodes of `assign` tags. -/
theorem exists_of_mem_run_unused (h : t.root = .ok root) (hkind : root.kind = .document)
    {l : Assignments.Ledger} (hf : f ∈ ((Check.unusedAssign l).run t.events).2) :
    ∃ n ∈ root.descendants, n.typeName = "assign" ∧
      ∃ message, f = t.toSourceFile.finding n.span message (some (.delete n.span)) := by
  obtain ⟨hooks, hhooks, hrun⟩ := exists_run_unused h hkind
  rw [hrun] at hf
  exact Assignments.exists_of_mem_run (fun p hp => by cases hp) hhooks hf

/-! ### Findings at sites -/

namespace Edit

open Liquid (Body)

variable {b : Body} {c : Correction} {x : Nat}

/-- The span of a fault is what its edit takes away. -/
theorem span_faults {n : Node} {source : Text} :
    ∀ g ∈ Spacing.faults n source, g.span = g.correction.range := by
  intro g hg
  unfold Spacing.faults at hg
  split at hg
  · rcases List.mem_append.1 hg with hg | hg
    · rcases List.mem_append.1 hg with hg | hg
      · exact Spacing.span_checkDelimiters g hg
      · exact Spacing.span_checkSeparators g hg
    · split at hg
      · split at hg
        · exact Spacing.span_checkDelimiters g hg
        · cases hg
      · cases hg
  · cases hg

/-- What does not hold of the document itself holds of a node inside it. -/
theorem exists_descendants_document {P : Node → Prop} (hP : ¬ P b.document) :
    (∃ n ∈ b.document.descendants, P n) ↔ ∃ n ∈ Node.descendantsOf (b.layout 0), P n := by
  constructor
  · rintro ⟨n, hn, h⟩
    rcases List.mem_cons.1 hn with rfl | hn
    · exact absurd h hP
    · exact ⟨n, hn, h⟩
  · rintro ⟨n, hn, h⟩
    exact ⟨n, List.mem_cons_of_mem _ hn, h⟩

/-- **Corrections of white space** belong to sites, and are reported where they begin. -/
theorem exists_spacing_iff (off : Off) (hroot : t.root = .ok b.document) (hfits : b.Fits none)
    (hsource : b.spell = t.source) :
    (∃ f ∈ (Check.spaceInsideBraces.run t.events).2,
      f.correction = some c ∧ f.location.start = x) ↔
      ∃ s ∈ sites off 0 b, s.Spaces c ∧ c.range.start = x := by
  -- the faults of nodes and the corrections of sites are the same edits of the source
  have hstands : Text.Stands t.source 0 b.spell := hsource ▸ Text.stands_self _
  have hsites := mem_faults_iff (c := c) off hfits hstands
  have hdoc : ¬ c ∈ (Spacing.faults b.document t.source).map (·.correction) := by
    simp [Spacing.faults, Body.document, Node.typeName, Node.isTag, Node.tagName?]
  rw [← exists_descendants_document hdoc] at hsites
  constructor
  · rintro ⟨f, hf, hc, hx⟩
    obtain ⟨n, hn, g, hg, rfl⟩ := (mem_run_spacing hroot).1 hf
    obtain rfl : g.correction = c := Option.some.inj hc
    obtain ⟨s, hs, h⟩ := hsites.1 ⟨n, hn, List.mem_map.2 ⟨g, hg, rfl⟩⟩
    exact ⟨s, hs, h, by rw [← span_faults g hg]; exact hx⟩
  · rintro ⟨s, hs, h, hx⟩
    obtain ⟨n, hn, hmem⟩ := hsites.2 ⟨s, hs, h⟩
    obtain ⟨g, hg, rfl⟩ := List.mem_map.1 hmem
    refine ⟨_, (mem_run_spacing hroot).2 ⟨n, hn, g, hg, rfl⟩, rfl, ?_⟩
    rw [← hx, ← span_faults g hg]
    rfl

/-- **Corrections of names** belong to sites, and are reported where these begin. -/
theorem exists_outdated_iff (off : Off) (hroot : t.root = .ok b.document) (hfits : b.Fits none)
    (hsource : b.spell = t.source) :
    (∃ f ∈ (Check.convertIncludeToRender.run t.events).2,
      f.correction = some c ∧ f.location.start = x) ↔
      ∃ s ∈ sites off 0 b, s.Renames c ∧ s.start = x := by
  have hstands : Text.Stands t.source 0 b.spell := hsource ▸ Text.stands_self _
  have hsites := mem_outdated_iff (c := c) (x := x) off hfits hstands
  have hdoc : "document" ≠ "include" := by decide
  rw [← exists_descendants_document fun h => hdoc h.1] at hsites
  rw [← hsites]
  constructor
  · rintro ⟨f, hf, hc, hx⟩
    obtain ⟨n, hn, hname, rfl⟩ := (mem_run_outdated hroot).1 hf
    exact ⟨n, hn, hname, hc, hx⟩
  · rintro ⟨n, hn, hname, hc, hx⟩
    exact ⟨_, (mem_run_outdated hroot).2 ⟨n, hn, hname, rfl⟩, hc, hx⟩

/-- **Corrections of assignments** take sites away, and are reported where these begin. -/
theorem exists_drop_of_mem_run (off : Off) (hroot : t.root = .ok b.document) (hfits : b.Fits none)
    {l : Assignments.Ledger} (hf : f ∈ ((Check.unusedAssign l).run t.events).2) :
    ∃ s ∈ sites off 0 b, ∃ c, f.correction = some c ∧ s.Drop c ∧ s.start = f.location.start := by
  obtain ⟨n, hn, hname, message, rfl⟩ := exists_of_mem_run_unused hroot rfl hf
  have hdoc : "document" ≠ "assign" := by decide
  obtain ⟨n', hn', hname', hspan⟩ := (exists_descendants_document
    (P := fun x => x.typeName = "assign" ∧ x.span = n.span) fun h => hdoc h.1).1
      ⟨n, hn, hname, rfl⟩
  obtain ⟨s, hs, h⟩ := exists_drop off hfits hn' hname'
  rw [hspan] at h
  exact ⟨s, hs, _, rfl, h, (congrArg Span.start h.range).symm⟩

end Edit

end LiquidLint
