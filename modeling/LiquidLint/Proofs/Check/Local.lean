import LiquidLint.Proofs.Check.Reason
import LiquidLint.Proofs.Edit.Safety
import LiquidLint.Proofs.Theme.Cache

/-!
# Checks that look at one template at a time

Some checks report what they find in a template, at that template, and nothing else. All but one of
them remember nothing. The check for unused assignments keeps a ledger, and starts a new one at the
document of each template. A template that does not parse has no document, but then nothing else is
shown of it either. So these checks report about a theme what they report about its templates one by
one (`IsLocal.run_theme`), and about a template the same whatever came before it
(`Alike.run_template`).
-/

namespace LiquidLint

open Liquid (Node)

/-- The template an event belongs to. -/
def Event.template? : Event → Option Template
  | .node _ _ t => some t
  | .onError _ t => some t
  | .afterTemplate t => some t
  | _ => none

theorem Template.template?_of_mem_events {t : Template} {e : Event} (he : e ∈ t.events) :
    e.template? = some t := by
  unfold Template.events Template.eventsOf Template.visitOf at he
  rcases List.mem_append.1 he with he | he
  · split at he
    · obtain ⟨p, -, rfl⟩ := List.mem_map.1 he
      rfl
    · rw [List.mem_singleton.1 he]
      rfl
  · rw [List.mem_singleton.1 he]
    rfl

namespace Check

variable {c d : Check} {e : Event} {es : List Event} {f : Finding} {t : Template}

/-! ### Memory -/

@[simp] theorem name_next (c : Check) (e : Event) : (c.next e).name = c.name := by
  cases c with
  | missingTemplate known => cases e <;> rfl
  | _ => rfl

@[simp] theorem canDisable_next (c : Check) (e : Event) : (c.next e).canDisable = c.canDisable := by
  cases c with
  | missingTemplate known => cases e <;> rfl
  | _ => rfl

@[simp] theorem name_run (c : Check) (es : List Event) : (c.run es).1.name = c.name := by
  induction es generalizing c with
  | nil => rfl
  | cons e es ih => rw [run, ih, name_next]

@[simp] theorem canDisable_run (c : Check) (es : List Event) :
    (c.run es).1.canDisable = c.canDisable := by
  induction es generalizing c with
  | nil => rfl
  | cons e es ih => rw [run, ih, canDisable_next]

/-- The same check, but for the assignments it remembers. -/
inductive Alike : Check → Check → Prop
  | refl (c : Check) : Alike c c
  | ledger (l l' : Assignments.Ledger) : Alike (.unusedAssign l) (.unusedAssign l')

theorem Alike.symm (h : Alike c d) : Alike d c := by
  cases h with
  | refl => exact .refl c
  | ledger l l' => exact .ledger l' l

theorem Alike.trans {b : Check} (h : Alike b c) (h' : Alike c d) : Alike b d := by
  cases h with
  | refl => exact h'
  | ledger l l' =>
    cases h' with
    | refl => exact .ledger l l'
    | ledger _ l'' => exact .ledger l l''

theorem Alike.canCorrect_eq (h : Alike c d) : c.canCorrect = d.canCorrect := by
  cases h with
  | refl => rfl
  | ledger l l' => rfl

theorem Alike.canDisable_eq (h : Alike c d) : c.canDisable = d.canDisable := by
  cases h with
  | refl => rfl
  | ledger l l' => rfl

/-- **What is reported about a template** does not depend on what is remembered. -/
theorem Alike.run_template (h : Alike c d) (t : Template) :
    (c.run t.events).2 = (d.run t.events).2 := by
  cases h with
  | refl => rfl
  | ledger l l' =>
    cases hroot : t.root with
    | error e =>
      -- no node is shown, so there is nothing to report
      rw [Template.events_of_error hroot]
      rfl
    | ok root =>
      -- the document comes first, and with it a new ledger
      obtain ⟨b, rfl, -⟩ := t.exists_body hroot
      obtain ⟨hooks, -, hrun⟩ := exists_run_unused hroot rfl
      rw [hrun, hrun]

/-! ### Local checks -/

/-- A check that looks at one template at a time. -/
def IsLocal : Check → Prop
  | .syntaxError => True
  | .templateLength _ => True
  | .spaceInsideBraces => True
  | .unknownFilter _ => True
  | .unusedAssign _ => True
  | .convertIncludeToRender => True
  | .pattern _ => True
  | _ => False

theorem Alike.isLocal (h : Alike c d) (hc : c.IsLocal) : d.IsLocal := by
  cases h with
  | refl => exact hc
  | ledger l l' => trivial

/-- A local check goes on as the same check. -/
theorem IsLocal.alike_next (h : c.IsLocal) (e : Event) : Alike (c.next e) c := by
  cases c with
  | unusedAssign l => exact .ledger _ _
  | missingTemplate known => cases h
  | unusedSnippet uses => cases h
  | _ => exact .refl _

theorem IsLocal.next (h : c.IsLocal) (e : Event) : (c.next e).IsLocal :=
  (h.alike_next e).symm.isLocal h

theorem IsLocal.alike_run (h : c.IsLocal) (es : List Event) : Alike (c.run es).1 c := by
  induction es generalizing c with
  | nil => exact .refl c
  | cons e es ih => exact (ih (h.next e)).trans (h.alike_next e)

/-- **A finding of a local check** belongs to a template and points into it. -/
theorem IsLocal.exists_template (h : c.IsLocal) (hf : Reports c e f) :
    ∃ t, e.template? = some t ∧ f.location.path = t.relativePath := by
  cases hf with
  | missingTemplate => cases h
  | unusedSnippet => cases h
  | validJson => cases h
  | matchingTranslations => cases h
  | scripted => cases h
  | _ => exact ⟨_, rfl, rfl⟩

theorem IsLocal.exists_template_of_run (h : c.IsLocal) (hf : f ∈ (c.run es).2) :
    ∃ e ∈ es, ∃ t, e.template? = some t ∧ f.location.path = t.relativePath := by
  obtain ⟨d, hd, e, he, hf⟩ := exists_of_mem_run (P := IsLocal) (fun _ e h => h.next e) h hf
  exact ⟨e, he, hd.exists_template hf⟩

/-- Reports about a template name its path. -/
theorem IsLocal.path_of_mem_run (h : c.IsLocal) (hf : f ∈ (c.run t.events).2) :
    f.location.path = t.relativePath := by
  obtain ⟨e, he, s, hs, hpath⟩ := h.exists_template_of_run hf
  rw [Template.template?_of_mem_events he] at hs
  rw [hpath, Option.some.inj hs]

/-- Nothing is reported outside templates. -/
theorem IsLocal.run_eq_nil (h : c.IsLocal) (hes : ∀ e ∈ es, e.template? = none) :
    (c.run es).2 = [] := by
  rw [List.eq_nil_iff_forall_not_mem]
  intro f hf
  obtain ⟨e, he, t, ht, -⟩ := h.exists_template_of_run hf
  rw [hes e he] at ht
  cases ht

theorem IsLocal.run_templates (h : c.IsLocal) (ts : List Template) :
    (c.run (ts.flatMap Template.events)).2 = ts.flatMap fun t => (c.run t.events).2 := by
  induction ts generalizing c with
  | nil => rfl
  | cons t ts ih =>
    -- the check goes on with another memory, which makes no difference to later templates
    have halike := h.alike_run t.events
    have hlater : ts.flatMap (fun s => ((c.run t.events).1.run s.events).2) =
        ts.flatMap fun s => (c.run s.events).2 :=
      List.flatMap_congr fun s _ => halike.run_template s
    rw [List.flatMap_cons, run_append, ih (halike.symm.isLocal h), hlater, List.flatMap_cons]

/-- **A theme is its templates** to a local check. -/
theorem IsLocal.run_theme (h : c.IsLocal) (theme : Theme) :
    (c.run theme.events).2 = theme.templates.flatMap fun t => (c.run t.events).2 := by
  have halike := h.alike_next (.onTheme theme)
  have hlocal := h.next (.onTheme theme)
  -- before the templates and after them there is nothing a local check reports about
  have hfirst : c.findings (.onTheme theme) = [] := by
    have hnone : (c.run [.onTheme theme]).2 = [] := h.run_eq_nil (by simp [Event.template?])
    rwa [findings_run_cons, run, List.append_nil] at hnone
  have hrest : ∀ d : Check, d.IsLocal →
      (d.run (theme.jsonFiles.map .onJson ++ [.onEnd theme])).2 = [] := by
    intro d hd
    refine hd.run_eq_nil fun e he => ?_
    rcases List.mem_append.1 he with he | he
    · obtain ⟨j, -, rfl⟩ := List.mem_map.1 he
      rfl
    · rw [List.mem_singleton.1 he]
      rfl
  have hafter := (hlocal.alike_run (theme.templates.flatMap Template.events)).symm.isLocal hlocal
  rw [Theme.events_eq, findings_run_cons, hfirst, List.nil_append, List.append_assoc, run_append,
    hrest _ hafter, List.append_nil, hlocal.run_templates]
  exact List.flatMap_congr fun t _ => halike.run_template t

end Check

end LiquidLint
