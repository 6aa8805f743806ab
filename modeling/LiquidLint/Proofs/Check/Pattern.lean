import LiquidLint.Proofs.Check.Unread
import LiquidLint.Proofs.Check.Valid
import LiquidLint.Proofs.Check.Visit
import LiquidLint.Proofs.Liquid.Concatenation
import LiquidLint.Proofs.Liquid.Tiling
import LiquidLint.Proofs.Regex.Spans
import Mathlib.Data.List.Nodup

/-!
# What declared patterns report

A declared pattern is searched for in the regions of nodes, and regions of nodes never touch:
between two of them there is at least one delimiter, also where one node is inside the other,
because no text stands right behind a text (`pairwise_region_layout`). So even empty matches at the
borders of two regions are apart, and the matches of all nodes come from left to right as those of
each node do (`pairwise_matches`). Which regular expression is searched for does not matter, nor
how: what is used of a search is `Searches`.

Main statement: `run_once`.
-/

namespace LiquidLint

open Liquid (Node Body Tiles IsTagAt)

namespace PatternCheck

variable {b : Body} {n : Node} {offset : Nat}

/-! ### Regions -/

@[simp] theorem region_text (span markup : Span) (ns : List Node) :
    region ⟨.text, span, markup, ns⟩ = span := rfl

@[simp] theorem region_variable (span markup : Span) (ns : List Node) :
    region ⟨.variable, span, markup, ns⟩ = markup := rfl

@[simp] theorem region_tag (name : String) (block : Bool) (span markup : Span) (ns : List Node) :
    region ⟨.tag name block, span, markup, ns⟩ = markup := rfl

/-- The number of bytes that stand before the first region of a body: those of a delimiter, unless
the body starts with text. -/
def gap : Body → Nat
  | .text _ _ => 0
  | _ => 2

theorem gap_eq_two (h : ∀ chars rest, b ≠ .text chars rest) : gap b = 2 := by
  cases b with
  | text chars rest => exact absurd rfl (h chars rest)
  | _ => rfl

/-- Regions lie within the characters of their body, behind the first delimiter. -/
theorem bounds_of_mem_layout : ∀ n ∈ Node.descendantsOf (b.layout offset),
    offset + gap b ≤ (region n).start ∧ (region n).stop ≤ offset + b.spell.size := by
  -- each part of a body lies behind the opening delimiter, if there is one, and before the rest
  induction b generalizing offset with
  | nil => exact List.forall_mem_nil _
  | text chars rest ih =>
    simp only [Body.layout, Node.descendantsOf, Node.descendants, List.singleton_append,
      List.forall_mem_cons, Body.spell_text, Text.size_append, region_text, gap]
    refine ⟨by omega, fun n hn => ?_⟩
    have := ih n hn
    omega
  | output m rest ih =>
    have hsize : (Body.output m rest).spell.size = m.size + 4 + rest.spell.size := by
      simp [Liquid.size_brace]
      omega
    simp only [Body.layout, Node.descendantsOf, Node.descendants, List.singleton_append,
      List.forall_mem_cons, hsize, region_variable, gap]
    refine ⟨by omega, fun n hn => ?_⟩
    have := ih n hn
    omega
  | tag m rest ih =>
    simp only [Body.layout, Node.descendantsOf, Node.descendants, List.singleton_append,
      List.forall_mem_cons, Body.spell_tag, Text.size_append, Body.size_tagLexeme, region_tag, gap]
    refine ⟨by omega, fun n hn => ?_⟩
    have := ih n hn
    omega
  | raw m chars close rest ih =>
    simp only [Body.layout, Node.descendantsOf, Node.descendants, List.cons_append,
      List.forall_mem_cons, List.forall_mem_append, Body.spell_raw, Text.size_append,
      Body.size_tagLexeme, region_tag, gap]
    refine ⟨by omega, ?_, fun n hn => ?_⟩
    · split
      · exact List.forall_mem_nil _
      · simp only [Node.descendantsOf, Node.descendants, List.append_nil, List.forall_mem_singleton,
          region_text]
        omega
    · have := ih n hn
      omega
  | block m inner close rest ihi ih =>
    simp only [Body.layout, Node.descendantsOf, Node.descendants, List.cons_append,
      List.forall_mem_cons, List.forall_mem_append, Body.spell_block, Text.size_append,
      Body.size_tagLexeme, region_tag, gap]
    refine ⟨by omega, fun n hn => ?_, fun n hn => ?_⟩
    · have := ihi n hn
      omega
    · have := ih n hn
      omega

/-- **Regions do not touch**: each of them ends before the next one in document order starts. -/
theorem pairwise_region_layout (h : b.Apart) : (Node.descendantsOf (b.layout offset)).Pairwise
    fun m n => (region m).stop < (region n).start := by
  -- a region ends before its closing delimiter, and what follows starts behind it
  induction b generalizing offset with
  | nil => exact .nil
  | text chars rest ih =>
    simp only [Body.layout, Node.descendantsOf, Node.descendants, List.singleton_append,
      List.pairwise_cons, region_text]
    refine ⟨fun n hn => ?_, ih h.2⟩
    have := (bounds_of_mem_layout n hn).1
    -- a text is followed by a delimiter, since texts do not touch
    rw [gap_eq_two h.1] at this
    omega
  | output m rest ih =>
    simp only [Body.layout, Node.descendantsOf, Node.descendants, List.singleton_append,
      List.pairwise_cons, region_variable]
    refine ⟨fun n hn => ?_, ih h⟩
    have := bounds_of_mem_layout n hn
    omega
  | tag m rest ih =>
    simp only [Body.layout, Node.descendantsOf, Node.descendants, List.singleton_append,
      List.pairwise_cons, region_tag]
    refine ⟨fun n hn => ?_, ih h⟩
    have := bounds_of_mem_layout n hn
    omega
  | raw m chars close rest ih =>
    simp only [Body.layout, Node.descendantsOf, Node.descendants, List.cons_append,
      List.pairwise_cons, List.pairwise_append, List.forall_mem_append, region_tag]
    refine ⟨⟨?_, fun n hn => ?_⟩, ?_, ih h, fun l hl n hn => ?_⟩
    · split
      · exact List.forall_mem_nil _
      · simp only [Node.descendantsOf, Node.descendants, List.append_nil, List.forall_mem_singleton,
          region_text]
        omega
    · have := bounds_of_mem_layout n hn
      omega
    · split
      · exact .nil
      · exact List.pairwise_singleton _ _
    · -- the end tag stands between the text inside and what follows
      have := bounds_of_mem_layout n hn
      split at hl
      · cases hl
      · cases List.mem_singleton.1 hl
        simp only [region_text]
        omega
  | block m inner close rest ihi ih =>
    simp only [Body.layout, Node.descendantsOf, Node.descendants, List.cons_append,
      List.pairwise_cons, List.pairwise_append, List.forall_mem_append, region_tag]
    refine ⟨⟨fun n hn => ?_, fun n hn => ?_⟩, ihi h.1, ih h.2, fun l hl n hn => ?_⟩
    · have := bounds_of_mem_layout n hn
      omega
    · have := bounds_of_mem_layout n hn
      omega
    · -- the end tag stands between what is inside and what follows
      have hinside := bounds_of_mem_layout l hl
      have hafter := bounds_of_mem_layout n hn
      omega

/-! ### Matches -/

/-- The spans that a search finds in the region of a node. -/
def matchesIn (find : Text → List Span) (source : Text) (n : Node) : List Span :=
  (find (source.slice (region n))).map (·.shift (region n).start)

variable {find : Text → List Span} {source : Text} {s : Span} {ns : List Node}

/-- What is found in a region lies within the region. -/
theorem bounds_of_mem_matchesIn (hfind : Searches find) (hn : (region n).Within source)
    (h : s ∈ matchesIn find source n) :
    (region n).start ≤ s.start ∧ s.start ≤ s.stop ∧ s.stop ≤ (region n).stop := by
  obtain ⟨m, hm, rfl⟩ := List.mem_map.1 h
  have hwithin := hfind.within _ m hm
  have hle := hwithin.le
  have hstop := hwithin.stop_le
  have hsize := hn.stands.2
  simp only [Span.shift]
  omega

theorem pairwise_matchesIn (hfind : Searches find) (source : Text) (n : Node) :
    (matchesIn find source n).Pairwise Span.Precedes := by
  rw [matchesIn, List.pairwise_map]
  refine (hfind.ordered _).imp fun h => ?_
  exact ⟨Nat.add_lt_add_right h.1 _, Nat.add_le_add_right h.2 _⟩

/-- **What is found in regions that do not touch** comes from left to right, without overlap. -/
theorem pairwise_flatMap_matchesIn (hfind : Searches find) (hns : ∀ n ∈ ns, (region n).Within source)
    (h : ns.Pairwise fun m n => (region m).stop < (region n).start) :
    (ns.flatMap (matchesIn find source)).Pairwise Span.Precedes := by
  refine List.pairwise_flatMap.2 ⟨fun n _ => pairwise_matchesIn hfind source n, ?_⟩
  refine h.imp_of_mem fun hm hn hlt a ha b hb => ?_
  have hleft := bounds_of_mem_matchesIn hfind (hns _ hm) ha
  have hright := bounds_of_mem_matchesIn hfind (hns _ hn) hb
  exact ⟨by omega, by omega⟩

/-- No span lies in two regions that do not touch. -/
theorem eq_of_mem_regions {m : Node} (h : ns.Pairwise fun m n => (region m).stop < (region n).start)
    (hm : m ∈ ns) (hn : n ∈ ns) (hle : s.start ≤ s.stop)
    (hsm : (region m).start ≤ s.start ∧ s.stop ≤ (region m).stop)
    (hsn : (region n).start ≤ s.start ∧ s.stop ≤ (region n).stop) : m = n := by
  have : Std.Symm fun m n : Node => (region m).stop < (region n).start ∨
      (region n).stop < (region m).start := ⟨fun _ _ => Or.symm⟩
  by_contra hne
  have happart := (h.imp (S := fun m n : Node => (region m).stop < (region n).start ∨
    (region n).stop < (region m).start) fun h => Or.inl h).forall hm hn hne
  omega

/-! ### Reports -/

/-- The nodes inside a document that a check looks into. -/
def searched (p : PatternCheck) (root : Node) : List Node :=
  (Node.descendantsOf root.children).filter (·.typeName ∈ p.nodeTypes)

/-- The spans that are found in a document when a check looks for them with `find`. -/
def found (p : PatternCheck) (find : Text → List Span) (source : Text) (root : Node) : List Span :=
  (p.searched root).flatMap (matchesIn find source)

variable {p : PatternCheck} {t : Template} {root : Node}

theorem within_region (hroot : t.root = .ok root) (hn : n ∈ Node.descendantsOf root.children) :
    (region n).Within t.source := by
  have hmem : n ∈ root.descendants := by
    rw [Node.descendants_eq]
    exact List.mem_cons_of_mem _ hn
  have hwithin := t.within_of_mem_descendants hroot hmem
  unfold region
  split
  · exact hwithin.1
  · exact hwithin.2

theorem matchSpans_eq (hn : (region n).Within t.source) : p.matchSpans n t.source =
    if n.typeName ∈ p.nodeTypes then matchesIn p.search t.source n else [] := by
  obtain ⟨hstands, hstop⟩ := hn.stands
  have hslice := hstands.slice?
  rw [← hstop] at hslice
  unfold matchSpans
  rw [hslice, List.contains_eq_mem]
  simp only [decide_eq_true_eq]
  rfl

/-- **What a declared pattern reports** is what is found in the regions of the nodes it looks into.
-/
theorem run_eq (hroot : t.root = .ok root) (hp : "document" ∉ p.nodeTypes) :
    ((Check.pattern p).run t.events).2 =
      (p.found p.search t.source root).map (t.toSourceFile.finding · p.message none) := by
  -- only the hook for every node reports
  have hother : ∀ hook n, hook ≠ .onNode → p.findings (.node hook n t) = [] := by
    intro hook n hne
    cases hook with
    | onNode => exact absurd rfl hne
    | _ => rfl
  -- the document is a node too, but its type is not asked for
  have hdocument : p.findings (.node .onNode root t) = [] := by
    have htype : root.typeName = "document" := by
      rw [Node.typeName, Liquid.kind_of_parse hroot]
    show (p.matchSpans root t.source).map _ = []
    rw [matchSpans, htype, if_neg (by simpa using hp), List.map_nil]
  -- below it, a region is searched when the type of its node is asked for
  have hinside : ∀ n ∈ Node.descendantsOf root.children, p.findings (.node .onNode n t) =
      if decide (n.typeName ∈ p.nodeTypes) then
        (matchesIn p.search t.source n).map (t.toSourceFile.finding · p.message none)
      else [] := by
    intro n hn
    show (p.matchSpans n t.source).map _ = _
    rw [matchSpans_eq (within_region hroot hn)]
    by_cases hmem : n.typeName ∈ p.nodeTypes
    · rw [if_pos hmem, if_pos (decide_eq_true hmem)]
      rfl
    · rw [if_neg hmem, if_neg (by simpa using hmem), List.map_nil]
  have hrun : ((Check.pattern p).run t.events).2 = t.events.flatMap p.findings := by
    rw [Check.run_eq_flatMap fun _ => rfl]
    rfl
  have hafter : [Event.afterTemplate t].flatMap p.findings = [] := rfl
  rw [hrun, Template.events_of_root hroot, List.flatMap_append, hafter, List.append_nil,
    flatMap_called hother, Node.called_onNode_hooks, Node.descendants_eq, List.flatMap_cons,
    hdocument, List.nil_append, List.flatMap_congr hinside, flatMap_if, found, searched,
    List.map_flatMap]

/-- In a template that parses regions do not touch. -/
theorem pairwise_region (hroot : t.root = .ok root) :
    (Node.descendantsOf root.children).Pairwise fun m n => (region m).stop < (region n).start := by
  obtain ⟨b, -, hcuts, rfl⟩ := Liquid.exists_body_of_parse hroot
  exact pairwise_region_layout (Body.apart_of_source hcuts)

/-- The region of a block ends right before the delimiter behind which its body starts. -/
theorem exists_body_after_region (hroot : t.root = .ok root)
    (hn : n ∈ Node.descendantsOf root.children) (hblock : n.isBlock = true) :
    ∃ close, Tiles n.children ((region n).stop + 2) close ∧
      IsTagAt t.source ⟨close, n.span.stop⟩ ("end" ++ n.typeName) := by
  have hplaced := Liquid.placed_of_parse hroot hn
  obtain ⟨kind, span, markup, children⟩ := n
  cases kind with
  | tag name block =>
    cases block with
    | false => cases hblock
    | true => exact hplaced.2.2.1
  | _ => cases hblock

theorem mem_found : s ∈ p.found find t.source root ↔ ∃ n ∈ p.searched root,
    ∃ m ∈ find (t.source.slice (region n)), m.shift (region n).start = s := by
  simp only [found, matchesIn, List.mem_flatMap, List.mem_map]

theorem mem_of_mem_searched (h : n ∈ p.searched root) : n ∈ Node.descendantsOf root.children :=
  (List.mem_filter.1 h).1

theorem pairwise_found (hroot : t.root = .ok root) (hfind : Searches find) :
    (p.found find t.source root).Pairwise Span.Precedes :=
  pairwise_flatMap_matchesIn hfind (fun _ hn => within_region hroot (mem_of_mem_searched hn))
    ((pairwise_region hroot).filter _)

/-- **Each match is found in one node**, and its span has what was matched. -/
theorem existsUnique_of_mem_found (hroot : t.root = .ok root) (hfind : Searches find)
    (h : s ∈ p.found find t.source root) : ∃! n, n ∈ p.searched root ∧
      ∃ m ∈ find (t.source.slice (region n)), s = m.shift (region n).start ∧
        t.source.slice s = Text.slice (t.source.slice (region n)) m := by
  have hbounds : ∀ {n m}, n ∈ p.searched root → m ∈ find (t.source.slice (region n)) →
      s = m.shift (region n).start →
      (region n).start ≤ s.start ∧ s.start ≤ s.stop ∧ s.stop ≤ (region n).stop := by
    rintro n m hn hm rfl
    exact bounds_of_mem_matchesIn hfind (within_region hroot (mem_of_mem_searched hn))
      (List.mem_map_of_mem hm)
  obtain ⟨n, hn, m, hm, rfl⟩ := mem_found.1 h
  have hwithin := within_region hroot (mem_of_mem_searched hn)
  refine ⟨n, ⟨hn, m, hm, rfl, (hfind.within _ m hm).slice_shift hwithin.stands.1⟩, ?_⟩
  rintro n' ⟨hn', m', hm', heq, -⟩
  have hleft := hbounds hn' hm' heq
  have hright := hbounds hn hm rfl
  exact eq_of_mem_regions (pairwise_region hroot) (mem_of_mem_searched hn') (mem_of_mem_searched hn)
    hright.2.1 ⟨hleft.1, hleft.2.2⟩ ⟨hright.1, hright.2.2⟩

/-- **Every match is found once.** -/
theorem count_found (hroot : t.root = .ok root) (hfind : Searches find) {m : Span}
    (hn : n ∈ p.searched root) (hm : m ∈ find (t.source.slice (region n))) :
    (p.found find t.source root).count (m.shift (region n).start) = 1 := by
  have hnodup : (p.found find t.source root).Nodup := by
    refine (pairwise_found hroot hfind).imp ?_
    rintro a _ h rfl
    exact Nat.lt_irrefl _ h.1
  exact List.count_eq_one_of_mem hnodup (mem_found.2 ⟨n, hn, m, hm, rfl⟩)

/-- **Declared patterns report each match once, at its place**, in templates that parse, unless they
look into documents as a whole. The regions of nodes do not touch, and that of a block ends before
its body starts. What is reported is what the search for the pattern finds in the regions of the
nodes that the check looks into. For every search this comes from left to right and without overlap,
each span is found in one of these nodes and has there what was matched, and every match is found
once. The search of `Regex.spans` is one of these. -/
theorem run_once (hroot : t.root = .ok root) (hp : "document" ∉ p.nodeTypes) :
    ((Node.descendantsOf root.children).Pairwise fun m n => (region m).stop < (region n).start) ∧
      (∀ n ∈ Node.descendantsOf root.children, n.isBlock = true →
        ∃ close, Tiles n.children ((region n).stop + 2) close ∧
          IsTagAt t.source ⟨close, n.span.stop⟩ ("end" ++ n.typeName)) ∧
      ((Check.pattern p).run t.events).2 =
        (p.found p.search t.source root).map (t.toSourceFile.finding · p.message none) ∧
      (∀ r : Regex, Searches r.spans) ∧
      ∀ find, Searches find →
        (p.found find t.source root).Pairwise Span.Precedes ∧
        (∀ s ∈ p.found find t.source root, ∃! n, n ∈ p.searched root ∧
          ∃ m ∈ find (t.source.slice (region n)), s = m.shift (region n).start ∧
            t.source.slice s = Text.slice (t.source.slice (region n)) m) ∧
        ∀ n ∈ p.searched root, ∀ m ∈ find (t.source.slice (region n)),
          (p.found find t.source root).count (m.shift (region n).start) = 1 :=
  ⟨pairwise_region hroot, fun _ hn => exists_body_after_region hroot hn, run_eq hroot hp,
    Regex.searches_spans, fun _ hfind => ⟨pairwise_found hroot hfind,
      fun _ => existsUnique_of_mem_found hroot hfind, fun _ hn _ => count_found hroot hfind hn⟩⟩

/-- Empty matches at both ends of a region. -/
theorem run_once_empty :
    let p : PatternCheck := ⟨"Letters", .liquid, "", .style, "letters",
      Regex.spans (.star (.set (.range 97 97)) true),
      ["text", "variable", "if"]⟩
    let t : Template :=
      ⟨⟨⟨"a.liquid"⟩, "a\x7b%if%\x7d\x7b\x7b\x7d\x7da\x7b%endif%\x7d".toList⟩, ⟨"a.liquid"⟩⟩
    "document" ∉ p.nodeTypes ∧
      (∃ root, t.root = .ok root ∧ (p.found p.search t.source root).Pairwise Span.Precedes) ∧
      ((Check.pattern p).run t.events).2.map (fun f => (f.location.start, f.location.stop)) =
        [(0, 1), (3, 3), (4, 4), (5, 5), (9, 9), (11, 12)] := by
  intro p t
  obtain ⟨root, hroot⟩ := Liquid.exists_parse t.source (by decide +kernel)
  have hp : "document" ∉ p.nodeTypes := by decide
  obtain ⟨-, -, -, hsearches, hfound⟩ := run_once (t := t) hroot hp
  exact ⟨hp, ⟨root, hroot, (hfound _ (hsearches _)).1⟩, by decide +kernel⟩

end PatternCheck

end LiquidLint
