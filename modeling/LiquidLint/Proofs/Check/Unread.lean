import LiquidLint.Proofs.Check.Local
import LiquidLint.Proofs.Liquid.Lookup
import LiquidLint.Proofs.Liquid.Markup

/-!
# Assignments that are not read

The check for unused assignments keeps a ledger of a template. At the end of the template the ledger
knows all its nodes (`Ledger.Knows`): the variables that are assigned, those that are looked up, and
whether something is included. Main statement: an assignment is reported exactly when its variable is
read nowhere in the template (`Assignments.reported_iff_unread`). Two readings go unseen: that of a
variable named like a keyword, and that at the upper end of a range (`Assignments.reported_range`).
-/

namespace LiquidLint

open Liquid (Node Body nameOf)

/-! ### Kinds of nodes -/

namespace Liquid

/-- A node that is no document, and no tag that is named like a document or a text. -/
def Node.Proper (n : Node) : Prop :=
  match n.kind with
  | .document => False
  | .text | .variable => True
  | .tag name _ => name ≠ "document" ∧ name ≠ "text"

theorem Node.Listed.proper {n : Node} (h : n.Listed) : n.Proper := by
  obtain ⟨kind, span, markup, children⟩ := n
  cases kind with
  | document => cases h
  | tag name block => exact ⟨(h.ne rfl).1, (h.ne rfl).2.1⟩
  | _ => trivial

theorem Node.Proper.typeName_ne {n : Node} (h : n.Proper) : n.typeName ≠ "document" := by
  obtain ⟨kind, span, markup, children⟩ := n
  cases kind with
  | document => cases h
  | tag name block => exact h.1
  | _ => exact ne_of_beq_false rfl

/-- The markup of a node in which variables are read: of an assignment what follows the sign. -/
def Node.readMarkup? (n : Node) (source : Text) : Option Text :=
  match n.kind with
  | .document | .text => none
  | .variable => some (n.markup source)
  | .tag name _ =>
    if name = "assign" then (Text.cut? ['='] (n.markup source)).map (·.2)
    else some (n.markup source)

end Liquid

/-! ### The ledger of a template -/

namespace Assignments

open Liquid (lookups)

variable {l : Ledger} {source : Text} {ns : List Node} {n : Node} {t : Template}

/-- The variable an `assign` tag gives a value, and the span of the tag. -/
def assigned? (n : Node) (source : Text) : Option (String × Span) :=
  if n.typeName = "assign" then
    (Text.cut? ['='] (n.markup source)).bind fun (target, _) =>
      if target.trim.isEmpty then none else some (String.ofList target.trim, n.span)
  else none

/-- A ledger tells what stands in some nodes. -/
structure Ledger.Knows (l : Ledger) (source : Text) (ns : List Node) : Prop where
  assigned : ∀ p, p ∈ l.assigned ↔ ∃ n ∈ ns, assigned? n source = some p
  used : ∀ name, name ∈ l.used ↔ ∃ n ∈ ns, ∃ m ∈ n.readMarkup? source, name ∈ lookups m
  hasInclude : l.hasInclude = true ↔ ∃ n ∈ ns, n.typeName = "include"

theorem knows_empty (source : Text) : Ledger.empty.Knows source [] where
  assigned p := by simp [Ledger.empty]
  used name := by simp [Ledger.empty]
  hasInclude := by simp [Ledger.empty]

/-- **What a node adds** to the ledger. -/
theorem visit_eq (l : Ledger) (source : Text) (hn : n.Proper) : l.visit n source =
    ⟨(assigned? n source).toList ++ l.assigned,
      ((n.readMarkup? source).map lookups).getD [] ++ l.used,
      l.hasInclude || n.typeName == "include"⟩ := by
  obtain ⟨kind, span, markup, children⟩ := n
  -- what a node does to the ledger depends on its type: it assigns, includes, or is read only
  cases kind with
  | document => cases hn
  | text => simp [Ledger.visit, Node.typeName, assigned?, Node.readMarkup?]
  | tag name block =>
    by_cases hassign : name = "assign"
    · subst hassign
      simp only [Ledger.visit, Node.typeName, Ledger.assign, assigned?, Node.readMarkup?]
      -- an assignment has a name before its first equals sign, unless nothing is there
      cases Text.cut? ['='] (Node.markup ⟨.tag "assign" block, span, markup, children⟩ source) with
      | none => simp
      | some p => by_cases hempty : p.1.trim = [] <;> simp [Ledger.use, hempty]
    · by_cases hinclude : name = "include"
      · subst hinclude
        simp [Ledger.visit, Node.typeName, assigned?, Node.readMarkup?, Ledger.use]
      · -- any other tag is looked through for names, as no tag is called a text or a document
        have hvisit : l.visit ⟨.tag name block, span, markup, children⟩ source =
            l.use (Node.markup ⟨.tag name block, span, markup, children⟩ source) := by
          unfold Ledger.visit
          split
          · next h => exact absurd h hn.1
          · next h => exact absurd h hassign
          · next h => exact absurd h hinclude
          · next h => exact absurd h hn.2
          · rfl
        rw [hvisit]
        simp [Node.typeName, assigned?, Node.readMarkup?, Ledger.use, hassign, hinclude]
  | _ => simp [Ledger.visit, Node.typeName, assigned?, Node.readMarkup?, Ledger.use]

/-- **One more node** is taken into the ledger. -/
theorem Ledger.Knows.visit (h : l.Knows source ns) (hn : n.Proper) :
    (l.visit n source).Knows source (ns ++ [n]) := by
  have hsplit {P : Node → Prop} : (∃ m ∈ ns ++ [n], P m) ↔ P n ∨ ∃ m ∈ ns, P m := by
    simp [or_and_right, exists_or, or_comm]
  rw [visit_eq l source hn]
  constructor
  · intro p
    rw [hsplit, ← h.assigned, List.mem_append, Option.mem_toList]
  · intro name
    rw [hsplit, ← h.used, List.mem_append]
    refine or_congr_left ?_
    cases n.readMarkup? source <;> simp
  · rw [hsplit, ← h.hasInclude, Bool.or_eq_true, beq_iff_eq, or_comm]

/-- **A run of hooks** over proper nodes reports nothing, and takes the nodes into the ledger. -/
theorem run_hooks {hooks : List (NodeHook × Node)} (h : l.Knows t.source ns)
    (hhooks : ∀ p ∈ hooks, p.2.Proper) :
    ∃ l' ns', (Check.unusedAssign l).run (hooks.map fun (hook, n) => .node hook n t) =
      (.unusedAssign l', []) ∧ l'.Knows t.source ns' ∧
      ∀ n, n ∈ ns' ↔ n ∈ ns ∨ (NodeHook.onType, n) ∈ hooks := by
  induction hooks generalizing l ns with
  | nil => exact ⟨l, ns, rfl, h, by simp⟩
  | cons p hooks ih =>
    obtain ⟨hook, n⟩ := p
    obtain ⟨hn, hhooks⟩ := List.forall_mem_cons.1 hhooks
    have hnone : findings l (.node hook n t) = [] := by
      cases hook with
      | afterType => exact if_neg (by simpa using hn.typeName_ne)
      | _ => rfl
    -- only the hook for a node's type is written down, and so the list grows there only
    obtain ⟨ns₁, hknows, hmem⟩ : ∃ ns₁, (l.next (.node hook n t)).Knows t.source ns₁ ∧
        ∀ m, m ∈ ns₁ ↔ m ∈ ns ∨ (NodeHook.onType, m) = (hook, n) := by
      cases hook with
      | onType => exact ⟨ns ++ [n], h.visit hn, by simp⟩
      | _ => exact ⟨ns, h, by simp⟩
    obtain ⟨l', ns', hrun, hknows', hmem'⟩ := ih hknows hhooks
    refine ⟨l', ns', ?_, hknows', fun m => ?_⟩
    · rw [List.map_cons, Check.run]
      show (((Check.unusedAssign (l.next (.node hook n t))).run _).1,
        findings l (.node hook n t) ++ ((Check.unusedAssign (l.next (.node hook n t))).run _).2) = _
      rw [hrun, hnone]
      rfl
    · rw [hmem', hmem, List.mem_cons, or_assoc]

/-- **The end of a template** finds the whole template in the ledger. -/
theorem exists_run_template {root : Node} (hroot : t.root = .ok root) (l : Ledger) :
    ∃ l' : Ledger, ((Check.unusedAssign l).run t.events).2 =
      (l'.unused.map fun (name, span) =>
        t.toSourceFile.finding span s!"`{name}` is never used" (some (.delete span))) ∧
      l'.Knows t.source root.descendants := by
  obtain ⟨b, hfits, hcuts, rfl⟩ := Liquid.exists_body_of_parse hroot
  -- below the document there is no other one, so nothing is forgotten on the way
  have hproper : ∀ n ∈ Node.descendantsOf (b.layout 0), n.Proper := fun n hn =>
    (Liquid.listed_of_mem_layout hfits 0 n hn).proper
  have hhooks : ∀ p ∈ Node.hooksOf (b.layout 0), p.2.Proper := fun p hp =>
    hproper p.2 ((Edit.mem_hooksOf_iff p.1 p.2 _).1 hp).1
  obtain ⟨l', ns, hrun, hknows, hmem⟩ := run_hooks (t := t) (knows_empty t.source) hhooks
  refine ⟨l', ?_, ?_⟩
  · have hevents : t.events = .node .onNode b.document t :: .node .onType b.document t ::
        ((Node.hooksOf (b.layout 0)).map (fun (hook, n) => Event.node hook n t) ++
          [.node .afterType b.document t, .node .afterNode b.document t, .afterTemplate t]) := by
      rw [Template.events_of_root hroot]
      show ((.onNode, b.document) :: (.onType, b.document) :: (Node.hooksOf (b.layout 0) ++
        [(.afterType, b.document), (.afterNode, b.document)])).map _ ++ _ = _
      simp
    rw [hevents]
    show ((Check.unusedAssign .empty).run (_ ++ _)).2 = _
    rw [Check.run_append, hrun]
    show _ ++ [] = _
    rw [List.append_nil]
    rfl
  · -- the document itself has nothing to tell
    have hexists {P : Node → Prop} (hP : ¬ P b.document) :
        (∃ n ∈ ns, P n) ↔ ∃ n ∈ b.document.descendants, P n := by
      rw [Edit.exists_descendants_document hP]
      refine exists_congr fun n => and_congr_left fun _ => ?_
      rw [hmem, or_iff_right List.not_mem_nil, Edit.mem_hooksOf_iff]
      exact and_iff_left (.inl (onType_mem_opening n))
    constructor
    · exact fun p => (hknows.assigned p).trans
        (hexists (by simp [assigned?, Body.document, Node.typeName]))
    · exact fun name => (hknows.used name).trans
        (hexists (by simp [Body.document, Node.readMarkup?]))
    · exact hknows.hasInclude.trans (hexists (by simp [Body.document, Node.typeName]))

/-- The reported assignments. -/
theorem mem_unused_iff {l : Ledger} {p : String × Span} :
    p ∈ l.unused ↔ l.hasInclude = false ∧ p ∈ l.assigned ∧ p.1 ∉ l.used := by
  unfold Ledger.unused
  split
  · next h => simp [h]
  · next h => simp [h, List.mem_filter]

/-- A variable is looked up nowhere when it is read nowhere, but for keywords and the upper ends of
ranges. -/
theorem not_mem_lookups_iff {m : Text} {name : String} : name ∉ lookups m ↔
    ∀ pre post, m = pre ++ (name.toList ++ post) → Liquid.Reads pre name.toList post →
      name ∈ Liquid.keywords ∨ ['.', '.'] <:+ pre := by
  rw [Liquid.mem_lookups_iff]
  constructor
  · intro h pre post hm hreads
    by_contra hnot
    rw [not_or] at hnot
    exact h ⟨hnot.1, pre, post, hm, hreads, fun hdot => hnot.2 (hreads.property hdot)⟩
  · rintro h ⟨hkeyword, pre, post, hm, hreads, hnodot⟩
    rcases h pre post hm hreads with hmem | hrange
    · exact hkeyword hmem
    · exact hnodot (List.IsSuffix.trans ⟨['.'], rfl⟩ hrange)

theorem span_of_assigned? {p : String × Span} (h : assigned? n source = some p) : p.2 = n.span := by
  unfold assigned? at h
  split at h
  · obtain ⟨⟨target, value⟩, -, h⟩ := Option.bind_eq_some_iff.1 h
    dsimp only at h
    split at h
    · cases h
    · rw [← Option.some.inj h]
  · cases h

/-- **What is reported about a theme.** A report of the check for unused assignments belongs to an
`assign` tag of a template that parses and includes nothing, and its edit takes the tag away. In no
output and no tag of the template, and in no assignment behind its sign, is the variable read: outside
strings, as a whole name, and neither as a property nor as a filter nor as a key. The readings that go
unseen are those of a variable that is named like a keyword, and those at the upper end of a range.
All assignments that are not seen to be read are reported. -/
theorem reported_iff_unread {theme : Theme} {l : Ledger} {f : Finding} :
    f ∈ ((Check.unusedAssign l).run theme.events).2 ↔
      ∃ t ∈ theme.templates, ∃ root, t.root = .ok root ∧
        (∀ m ∈ root.descendants, m.typeName ≠ "include") ∧
        ∃ n ∈ root.descendants, ∃ name, assigned? n t.source = some (name, n.span) ∧
          f = t.toSourceFile.finding n.span s!"`{name}` is never used" (some (.delete n.span)) ∧
          ∀ m ∈ root.descendants, ∀ markup ∈ m.readMarkup? t.source, ∀ pre post,
            markup = pre ++ (name.toList ++ post) → Liquid.Reads pre name.toList post →
              name ∈ Liquid.keywords ∨ ['.', '.'] <:+ pre := by
  rw [Check.IsLocal.run_theme (c := .unusedAssign l) trivial, List.mem_flatMap]
  refine exists_congr fun t => and_congr_right fun _ => ?_
  cases hroot : t.root with
  | error e =>
    rw [Template.events_of_error hroot]
    refine iff_of_false List.not_mem_nil ?_
    rintro ⟨_, h, _⟩
    cases h
  | ok root =>
    obtain ⟨l', hrun, hknows⟩ := exists_run_template hroot l
    -- a name is unread when every place that reads it is one that is passed over
    have hunread (name : String) : name ∉ l'.used ↔ ∀ m ∈ root.descendants,
        ∀ markup ∈ m.readMarkup? t.source, ∀ pre post, markup = pre ++ (name.toList ++ post) →
          Liquid.Reads pre name.toList post → name ∈ Liquid.keywords ∨ ['.', '.'] <:+ pre := by
      rw [hknows.used]
      simp only [← not_mem_lookups_iff, not_exists, not_and]
    have hinclude : l'.hasInclude = false ↔ ∀ m ∈ root.descendants, m.typeName ≠ "include" := by
      rw [Bool.eq_false_iff, Ne, hknows.hasInclude]
      simp only [not_exists, not_and]
    rw [hrun, List.mem_map]
    simp only [mem_unused_iff, hinclude, hknows.assigned, hunread]
    constructor
    · rintro ⟨⟨name, span⟩, ⟨hnone, ⟨n, hn, hassigned⟩, hread⟩, rfl⟩
      obtain rfl : span = n.span := span_of_assigned? hassigned
      exact ⟨root, rfl, hnone, n, hn, name, hassigned, rfl, hread⟩
    · rintro ⟨root', hroot', hnone, n, hn, name, hassigned, rfl, hread⟩
      obtain rfl := Except.ok.inj hroot'
      exact ⟨(name, n.span), ⟨hnone, ⟨n, hn, hassigned⟩, hread⟩, rfl⟩

/-- A reading is found in the markup of some node of a template that parses. -/
theorem exists_reading {t : Template} {pre w post : Text} (hreads : Liquid.Reads pre w post)
    (h : (match t.root with
      | .ok root =>
        root.descendants.any fun m => m.readMarkup? t.source == some (pre ++ (w ++ post))
      | .error _ => false) = true) :
    ∃ root, t.root = .ok root ∧ ∃ m ∈ root.descendants, ∃ markup ∈ m.readMarkup? t.source,
      ∃ pre post, markup = pre ++ (w ++ post) ∧ Liquid.Reads pre w post := by
  split at h
  · next root hroot =>
    obtain ⟨m, hm, hmarkup⟩ := List.any_eq_true.1 h
    exact ⟨root, hroot, m, hm, _, beq_iff_eq.1 hmarkup, pre, post, rfl, hreads⟩
  · cases h

/-- **The upper end of a range is not seen**: a variable that bounds a loop is reported as never used,
with the edit that takes its assignment away. So is a variable that is named like a keyword and shown
by the next tag. -/
theorem reported_range :
    let loop : Template := ⟨⟨⟨"a.liquid"⟩,
      "\x7b% assign v = 3 %\x7d\x7b% for i in (1..v) %\x7d\x7b% endfor %\x7d".toList⟩, ⟨"a.liquid"⟩⟩
    let shown : Template := ⟨⟨⟨"b.liquid"⟩,
      "\x7b% assign limit = 3 %\x7d\x7b\x7b limit \x7d\x7d".toList⟩, ⟨"b.liquid"⟩⟩
    ((Check.unusedAssign .empty).run (Theme.events ⟨⟨"."⟩, [loop, shown], []⟩)).2 =
      [loop.toSourceFile.finding ⟨0, 18⟩ "`v` is never used" (some (.delete ⟨0, 18⟩)),
        shown.toSourceFile.finding ⟨0, 22⟩ "`limit` is never used" (some (.delete ⟨0, 22⟩))] ∧
    (∃ root, loop.root = .ok root ∧ ∃ m ∈ root.descendants, ∃ markup ∈ m.readMarkup? loop.source,
      ∃ pre post, markup = pre ++ (['v'] ++ post) ∧ Liquid.Reads pre ['v'] post) ∧
    ∃ root, shown.root = .ok root ∧ ∃ m ∈ root.descendants, ∃ markup ∈ m.readMarkup? shown.source,
      ∃ pre post, markup = pre ++ ("limit".toList ++ post) ∧ Liquid.Reads pre "limit".toList post := by
  intro loop shown
  have hbound : Liquid.Reads "i in (1..".toList ['v'] [')'] := by
    have hname : Liquid.IsName ['v'] := ⟨'v', [], rfl, rfl, by simp⟩
    refine ⟨rfl, hname, (Liquid.whole_iff hname).2 ⟨?_, ?_⟩, fun _ => ⟨"i in (1".toList, rfl⟩,
      fun g _ hbar => ?_, by decide⟩
    · show Liquid.Idle ("i in (1.".toList ++ ['.'])
      exact Liquid.idle_concat rfl
    · rintro _ ⟨⟩
      rfl
    · exact absurd (hbar.subset (List.mem_cons_self ..)) (by decide)
  have hshown : Liquid.Reads [] "limit".toList [] := by
    have hname : Liquid.IsName "limit".toList := ⟨'l', "imit".toList, rfl, rfl, List.all_eq_true.1 rfl⟩
    refine ⟨rfl, hname, (Liquid.whole_iff hname).2 ⟨Liquid.idle_nil, by simp⟩, fun h => ?_,
      fun g _ hbar => ?_, by decide⟩
    · exact absurd h (by simp)
    · exact absurd hbar (by simp)
  exact ⟨by decide +kernel, exists_reading hbound (by decide +kernel),
    exists_reading hshown (by decide +kernel)⟩

end Assignments

end LiquidLint
