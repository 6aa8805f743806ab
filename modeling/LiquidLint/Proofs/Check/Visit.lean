import LiquidLint.Proofs.Analyzer.Selection

/-!
# The order of hooks

A node of a tree has an address, the list of the positions of the children on the way to it
(`Node.at?`). Addresses tell nodes apart that look the same, and they say where a node stands: below
another one, or in the part of an earlier child. Visiting a tree is a sequence of steps, each of which
enters the node at an address or leaves it. `Visit.Precedes` says of two steps which comes first,
without a word about how a tree is walked through: a node is entered before and left after all that
happens below it, and all that happens at and below a child comes before all that happens at and below
a later one. `Node.IsVisit` collects what a visit has to be, and `Visit.hooks` the hooks that belong to
a step.

The hooks of a tree are those of a visit (`Node.isVisit_tour`), and the nodes at which `onNode` is called
are those that a walk with a stack comes across, in the same order (`Node.walk_eq`,
`Node.called_onNode_hooks`). Main statement: `Template.events_protocol`.
-/

namespace LiquidLint

namespace Liquid

/-! ### Steps of a visit -/

/-- A step of a visit: the node at an address is entered or left. -/
inductive Visit where
  | enter (address : List Nat)
  | leave (address : List Nat)
deriving DecidableEq, Repr

namespace Visit

/-- The address of the node that is entered or left. -/
def address : Visit → List Nat
  | enter p => p
  | leave p => p

/-- The step as it is seen from above, where its tree is the child at position `i`. -/
def below (i : Nat) : Visit → Visit
  | enter p => enter (i :: p)
  | leave p => leave (i :: p)

/-- Which of two steps comes first. -/
inductive Precedes : Visit → Visit → Prop where
  /-- A node is entered before it is left. -/
  | around (p : List Nat) : Precedes (enter p) (leave p)
  /-- A node is entered before anything happens below it. -/
  | entered {s : Visit} {p q : List Nat} {i : Nat} : s.address = p ++ i :: q → Precedes (enter p) s
  /-- A node is left after everything that happens below it. -/
  | left {s : Visit} {p q : List Nat} {i : Nat} : s.address = p ++ i :: q → Precedes s (leave p)
  /-- Everything at and below a child comes before everything at and below a later one. -/
  | siblings {s s' : Visit} {p q q' : List Nat} {i j : Nat} : i < j → s.address = p ++ i :: q →
      s'.address = p ++ j :: q' → Precedes s s'

/-- Steps that are well nested: each node that is entered is left, and what is entered in between is
left in between. -/
inductive Nested : List Visit → Prop where
  | nil : Nested []
  | pair {p : List Nat} {inner rest : List Visit} : Nested inner → Nested rest →
      Nested (enter p :: (inner ++ leave p :: rest))

variable {s s' : Visit} {w u : List Visit}

@[simp] theorem address_below (i : Nat) (s : Visit) : (s.below i).address = i :: s.address := by
  cases s <;> rfl

/-- A step below the child at position `i` is that step as it is seen from above. -/
theorem exists_below {i : Nat} {p : List Nat} (h : s.address = i :: p) :
    ∃ s' : Visit, s = s'.below i ∧ s'.address = p := by
  cases s with
  | enter q =>
    obtain rfl : q = i :: p := h
    exact ⟨enter p, rfl, rfl⟩
  | leave q =>
    obtain rfl : q = i :: p := h
    exact ⟨leave p, rfl, rfl⟩

theorem Precedes.below (h : Precedes s s') (i : Nat) : Precedes (s.below i) (s'.below i) := by
  cases h with
  | around p => exact .around (i :: p)
  | @entered _ p _ _ hs => exact .entered (p := i :: p) (by rw [address_below, hs]; rfl)
  | @left _ p _ _ hs => exact .left (p := i :: p) (by rw [address_below, hs]; rfl)
  | @siblings _ _ p _ _ _ _ hlt hs hs' =>
    exact .siblings (p := i :: p) hlt (by rw [address_below, hs]; rfl)
      (by rw [address_below, hs']; rfl)

/-- No step comes before itself. -/
theorem Precedes.ne (h : Precedes s s') : s ≠ s' := by
  intro heq
  have haddress : s.address = s'.address := congrArg address heq
  cases h with
  | around p => cases heq
  | entered hs =>
    rw [hs] at haddress
    simp [address] at haddress
  | left hs =>
    rw [hs] at haddress
    simp [address] at haddress
  | siblings hlt hs hs' =>
    rw [hs, hs'] at haddress
    have hij := (List.cons.inj (List.append_cancel_left haddress)).1
    omega

theorem Nested.append (hw : Nested w) (hu : Nested u) : Nested (w ++ u) := by
  induction hw with
  | nil => exact hu
  | @pair p inner rest hinner _ _ ih =>
    rw [List.cons_append, List.append_assoc, List.cons_append]
    exact .pair hinner ih

theorem Nested.map_below (hw : Nested w) (i : Nat) : Nested (w.map (Visit.below i)) := by
  induction hw with
  | nil => exact .nil
  | @pair p inner rest _ _ ihi ih =>
    rw [List.map_cons, List.map_append, List.map_cons]
    exact .pair ihi ih

end Visit

/-! ### Nodes by address -/

namespace Node

/-- The node at an address: at the empty one stands the root, and the first number is the position of
a child. -/
def at? : Node → List Nat → Option Node
  | n, [] => some n
  | n, i :: p => n.children[i]?.bind fun c => c.at? p

@[simp] theorem at?_nil (n : Node) : n.at? [] = some n := by rw [at?]

@[simp] theorem at?_cons (n : Node) (i : Nat) (p : List Nat) :
    n.at? (i :: p) = n.children[i]?.bind fun c => c.at? p := by rw [at?]

/-! ### Tours -/

mutual

/-- The steps of a visit: the node is entered, its children are visited one after the other, and the
node is left unless it is text. -/
def tour : Node → List Visit
  | ⟨kind, span, markup, children⟩ =>
    let n : Node := ⟨kind, span, markup, children⟩
    .enter [] :: (tourOf 0 children ++ if n.isLiteral then [] else [.leave []])

/-- The steps of visiting some children, the first of which is at position `i`. -/
def tourOf (i : Nat) : List Node → List Visit
  | [] => []
  | n :: ns => n.tour.map (Visit.below i) ++ tourOf (i + 1) ns

end

/-- Whether a node takes part in a step: texts are not left. -/
def Takes (n : Node) : Visit → Prop
  | .enter _ => True
  | .leave _ => n.isLiteral = false

theorem takes_below (n : Node) (i : Nat) (s : Visit) : n.Takes (s.below i) ↔ n.Takes s := by
  cases s <;> rfl

theorem tour_eq (n : Node) : n.tour =
    .enter [] :: (tourOf 0 n.children ++ if n.isLiteral then [] else [.leave []]) := by
  obtain ⟨kind, span, markup, children⟩ := n
  rw [tour]

mutual

/-- **What happens on a tour**: the nodes of the tree are entered, and left unless they are texts. -/
theorem mem_tour_iff (s : Visit) : ∀ n : Node,
    s ∈ n.tour ↔ ∃ m, n.at? s.address = some m ∧ m.Takes s
  | ⟨kind, span, markup, children⟩ => by
    -- a step is at the root, where the node is entered and left, or below one of the children
    rw [tour_eq, List.mem_cons, List.mem_append, mem_tourOf_iff s 0 children]
    constructor
    · rintro (rfl | ⟨j, p, c, m, haddress, hc, hm, ht⟩ | hlast)
      · exact ⟨_, at?_nil _, trivial⟩
      · refine ⟨m, ?_, ht⟩
        rw [haddress, Nat.zero_add, at?_cons, hc, Option.bind_some, hm]
      · split at hlast
        · cases hlast
        · rename_i hliteral
          rw [List.mem_singleton.1 hlast]
          exact ⟨_, at?_nil _, Bool.eq_false_iff.2 hliteral⟩
    · rintro ⟨m, hm, ht⟩
      cases haddress : s.address with
      | nil =>
        rw [haddress, at?_nil] at hm
        obtain rfl := Option.some.inj hm
        cases s with
        | enter p =>
          obtain rfl : p = [] := haddress
          exact Or.inl rfl
        | leave p =>
          obtain rfl : p = [] := haddress
          exact Or.inr (Or.inr (by rw [show Node.isLiteral _ = false from ht]; simp))
      | cons j p =>
        rw [haddress, at?_cons] at hm
        obtain ⟨c, hc, hm⟩ := Option.bind_eq_some_iff.1 hm
        exact Or.inr (Or.inl ⟨j, p, c, m, by rw [Nat.zero_add], hc, hm, ht⟩)

theorem mem_tourOf_iff (s : Visit) (i : Nat) : ∀ ns : List Node,
    s ∈ tourOf i ns ↔ ∃ j p c m, s.address = (i + j) :: p ∧ ns[j]? = some c ∧ c.at? p = some m ∧
      m.Takes s
  | [] => by simp [tourOf]
  | n :: ns => by
    rw [tourOf, List.mem_append, List.mem_map, mem_tourOf_iff s (i + 1) ns]
    constructor
    · -- a visit of the first child, or of a later one
      rintro (⟨s', hs', rfl⟩ | ⟨j, p, c, m, haddress, hc, hm, ht⟩)
      · obtain ⟨m, hm, ht⟩ := (mem_tour_iff s' n).1 hs'
        exact ⟨0, s'.address, n, m, Visit.address_below i s', rfl, hm, (takes_below m i s').2 ht⟩
      · exact ⟨j + 1, p, c, m, by rw [haddress]; congr 1; omega, hc, hm, ht⟩
    · rintro ⟨j, p, c, m, haddress, hc, hm, ht⟩
      cases j with
      | zero =>
        obtain rfl : n = c := Option.some.inj hc
        obtain ⟨s', rfl, hs'⟩ := Visit.exists_below haddress
        refine Or.inl ⟨s', (mem_tour_iff s' n).2 ⟨m, ?_, (takes_below m _ s').1 ht⟩, rfl⟩
        rw [hs', hm]
      | succ j =>
        exact Or.inr ⟨j, p, c, m, by rw [haddress]; congr 1; omega, hc, hm, ht⟩

end

/-- What happens below a node has an address below it. -/
theorem exists_address_of_mem_tourOf {s : Visit} {i : Nat} {ns : List Node}
    (h : s ∈ tourOf i ns) : ∃ j p, s.address = (i + j) :: p := by
  obtain ⟨j, p, _, _, haddress, -⟩ := (mem_tourOf_iff s i ns).1 h
  exact ⟨j, p, haddress⟩

mutual

/-- **Tours keep the order of steps.** -/
theorem pairwise_tour : ∀ n : Node, n.tour.Pairwise Visit.Precedes
  | ⟨kind, span, markup, children⟩ => by
    -- the only step after the children is to leave the node
    have hleave : ∀ s ∈ (if Node.isLiteral ⟨kind, span, markup, children⟩ then []
        else [Visit.leave []]), s = Visit.leave [] := by
      intro s hs
      split at hs
      · cases hs
      · exact List.mem_singleton.1 hs
    rw [tour_eq, List.pairwise_cons, List.pairwise_append]
    refine ⟨fun s hs => ?_, pairwise_tourOf 0 children, ?_, fun s hs s' hs' => ?_⟩
    · rcases List.mem_append.1 hs with hs | hs
      · obtain ⟨j, p, haddress⟩ := exists_address_of_mem_tourOf hs
        exact .entered (p := []) haddress
      · rw [hleave s hs]
        exact .around []
    · split
      · exact .nil
      · exact List.pairwise_singleton _ _
    · obtain ⟨j, p, haddress⟩ := exists_address_of_mem_tourOf hs
      rw [hleave s' hs']
      exact .left (p := []) haddress

theorem pairwise_tourOf (i : Nat) : ∀ ns : List Node, (tourOf i ns).Pairwise Visit.Precedes
  | [] => by rw [tourOf]; exact .nil
  | n :: ns => by
    rw [tourOf, List.pairwise_append, List.pairwise_map]
    refine ⟨(pairwise_tour n).imp fun h => h.below i, pairwise_tourOf (i + 1) ns, ?_⟩
    intro s hs s' hs'
    obtain ⟨first, -, rfl⟩ := List.mem_map.1 hs
    obtain ⟨j, p, haddress⟩ := exists_address_of_mem_tourOf hs'
    exact .siblings (p := []) (by omega : i < i + 1 + j) (Visit.address_below i first) haddress

end

/-! ### Brackets -/

/-- Whether a step belongs to a node that is entered and left. -/
def isBracket (root : Node) (s : Visit) : Bool := (root.at? s.address).any (! ·.isLiteral)

theorem isBracket_below {root c : Node} {i : Nat} (h : root.children[i]? = some c) (s : Visit) :
    root.isBracket (s.below i) = c.isBracket s := by
  rw [isBracket, Visit.address_below, at?_cons, h, Option.bind_some, isBracket]

mutual

/-- **Tours are well nested**, texts apart. -/
theorem nested_tour : ∀ n : Node, Visit.Nested (n.tour.filter n.isBracket)
  | ⟨kind, span, markup, children⟩ => by
    generalize hn : Node.mk kind span markup children = n
    have hchildren : n.children = children := by rw [← hn]
    have hinner : Visit.Nested ((tourOf 0 children).filter n.isBracket) :=
      nested_tourOf n 0 children fun j => by rw [hchildren, Nat.zero_add]
    have henter : n.isBracket (.enter []) = !n.isLiteral := by
      rw [isBracket, Visit.address, at?_nil, Option.any_some]
    have hleave : n.isBracket (.leave []) = !n.isLiteral := by
      rw [isBracket, Visit.address, at?_nil, Option.any_some]
    rw [tour_eq, hchildren]
    by_cases hliteral : n.isLiteral = true
    · -- a text is no bracket, and it is not left
      rw [List.filter_cons_of_neg (by simp [henter, hliteral]), if_pos hliteral, List.append_nil]
      exact hinner
    · rw [List.filter_cons_of_pos (by simp [henter, hliteral]), List.filter_append,
        if_neg hliteral, List.filter_cons_of_pos (by simp [hleave, hliteral])]
      exact .pair hinner .nil

theorem nested_tourOf (root : Node) (i : Nat) : ∀ ns : List Node,
    (∀ j, root.children[i + j]? = ns[j]?) → Visit.Nested ((tourOf i ns).filter root.isBracket)
  | [], _ => by rw [tourOf]; exact .nil
  | n :: ns, h => by
    have hfirst : root.children[i]? = some n := h 0
    have hbelow : root.isBracket ∘ Visit.below i = n.isBracket :=
      funext fun s => isBracket_below hfirst s
    rw [tourOf, List.filter_append, List.filter_map, hbelow]
    refine ((nested_tour n).map_below i).append (nested_tourOf root (i + 1) ns fun j => ?_)
    have hlater := h (j + 1)
    rwa [show i + (j + 1) = i + 1 + j by omega] at hlater

end

end Node

/-! ### Hooks of a visit -/

/-- The hooks that are called at a step of visiting the tree `root`. -/
def Visit.hooks (root : Node) : Visit → List (NodeHook × Node)
  | .enter p =>
    match root.at? p with
    | some n => (.onNode, n) :: ((if n.isTag then [(.onTag, n)] else []) ++ [(.onType, n)])
    | none => []
  | .leave p =>
    match root.at? p with
    | some n => (.afterType, n) :: ((if n.isTag then [(.afterTag, n)] else []) ++ [(.afterNode, n)])
    | none => []

namespace Node

theorem hooks_below {root c : Node} {i : Nat} (h : root.children[i]? = some c) (s : Visit) :
    (s.below i).hooks root = s.hooks c := by
  cases s <;> simp only [Visit.below, Visit.hooks, at?_cons, h, Option.bind_some]

theorem hooks_enter (n : Node) : (Visit.enter []).hooks n = n.opening.map (·, n) := by
  simp only [Visit.hooks, opening, at?_nil]
  cases n.isTag <;> rfl

theorem hooks_leave {n : Node} (h : n.isLiteral = false) :
    (Visit.leave []).hooks n = n.closing.map (·, n) := by
  simp only [Visit.hooks, closing, at?_nil, h]
  cases n.isTag <;> rfl

mutual

/-- **The hooks of a tree are those of its tour.** -/
theorem hooks_eq_tour : ∀ n : Node, n.hooks = n.tour.flatMap (Visit.hooks n)
  | ⟨kind, span, markup, children⟩ => by
    generalize hn : Node.mk kind span markup children = n
    have hchildren : n.children = children := by rw [← hn]
    have hhooks : n.hooks = n.opening.map (·, n) ++ hooksOf children ++ n.closing.map (·, n) := by
      rw [← hn, Node.hooks]
    have hinner : hooksOf children = (tourOf 0 children).flatMap (Visit.hooks n) :=
      hooksOf_eq_tour n 0 children fun j => by rw [hchildren, Nat.zero_add]
    rw [hhooks, tour_eq, List.flatMap_cons, List.flatMap_append, hooks_enter, hchildren, hinner,
      List.append_assoc]
    congr 2
    by_cases hliteral : n.isLiteral = true
    · rw [if_pos hliteral, closing, if_pos hliteral]
      rfl
    · rw [if_neg hliteral, List.flatMap_singleton, hooks_leave (Bool.eq_false_iff.2 hliteral)]

theorem hooksOf_eq_tour (root : Node) (i : Nat) : ∀ ns : List Node,
    (∀ j, root.children[i + j]? = ns[j]?) → hooksOf ns = (tourOf i ns).flatMap (Visit.hooks root)
  | [], _ => by rw [hooksOf, tourOf]; rfl
  | n :: ns, h => by
    have hfirst : root.children[i]? = some n := h 0
    have hlater : ∀ j, root.children[i + 1 + j]? = ns[j]? := by
      intro j
      have hj := h (j + 1)
      rwa [show i + (j + 1) = i + 1 + j by omega] at hj
    rw [hooksOf, tourOf, List.flatMap_append, List.flatMap_map, hooks_eq_tour n,
      hooksOf_eq_tour root (i + 1) ns hlater]
    congr 1
    exact List.flatMap_congr fun s _ => (hooks_below hfirst s).symm

end

/-- What a visit of the tree `root` has to be, as its steps and as the hooks it calls. -/
structure IsVisit (root : Node) (steps : List Visit) (hooks : List (NodeHook × Node)) : Prop where
  /-- Every node is entered. -/
  enter_mem : ∀ p, .enter p ∈ steps ↔ ∃ n, root.at? p = some n
  /-- Every node that is no text is left. -/
  leave_mem : ∀ p, .leave p ∈ steps ↔ ∃ n, root.at? p = some n ∧ n.isLiteral = false
  /-- Nothing happens twice. -/
  nodup : steps.Nodup
  /-- Everything happens in its order. -/
  ordered : steps.Pairwise Visit.Precedes
  /-- Entering and leaving nodes that are no texts is well nested. -/
  nested : Visit.Nested (steps.filter root.isBracket)
  /-- At each step its hooks are called, and no others. -/
  hooks_eq : hooks = steps.flatMap (Visit.hooks root)

/-- **Trees are visited as they should be.** -/
theorem isVisit_tour (root : Node) : root.IsVisit root.tour root.hooks where
  enter_mem p := by
    rw [mem_tour_iff]
    exact exists_congr fun n => and_iff_left trivial
  leave_mem p := mem_tour_iff (.leave p) root
  nodup := (pairwise_tour root).imp fun h => h.ne
  ordered := pairwise_tour root
  nested := nested_tour root
  hooks_eq := hooks_eq_tour root

/-! ### Walking with a stack -/

theorem descendants_eq (n : Node) : n.descendants = n :: descendantsOf n.children := by
  obtain ⟨kind, span, markup, children⟩ := n
  rw [descendants]

theorem descendantsOf_append (ms ns : List Node) :
    descendantsOf (ms ++ ns) = descendantsOf ms ++ descendantsOf ns := by
  induction ms with
  | nil => rfl
  | cons m ms ih => rw [List.cons_append, descendantsOf, ih, descendantsOf, List.append_assoc]

/-- The nodes that a walk with a stack comes across, where the top of the stack is its first node: each
node is taken from the top, and its children are put there in its place. -/
def walk : List Node → List Node
  | [] => []
  | n :: stack => n :: walk (n.children ++ stack)
termination_by stack => (descendantsOf stack).length
decreasing_by
  -- below the stack there is one node fewer, the one that was taken
  rw [descendantsOf_append, descendantsOf, descendants_eq]
  simp

/-- **A walk with a stack** goes through the nodes in document order. -/
theorem walk_eq (stack : List Node) : walk stack = descendantsOf stack := by
  fun_induction walk stack with
  | case1 => rfl
  | case2 n stack ih =>
    rw [ih, descendantsOf_append, descendantsOf, descendants_eq, List.cons_append]

/-- The nodes at which a hook is called. -/
def called (hook : NodeHook) (hooks : List (NodeHook × Node)) : List Node :=
  (hooks.filter (·.1 = hook)).map (·.2)

theorem called_cons (hook : NodeHook) (p : NodeHook × Node) (hs : List (NodeHook × Node)) :
    called hook (p :: hs) = if p.1 = hook then p.2 :: called hook hs else called hook hs := by
  unfold called
  by_cases h : p.1 = hook <;> simp [h]

theorem called_append (hook : NodeHook) (hs ks : List (NodeHook × Node)) :
    called hook (hs ++ ks) = called hook hs ++ called hook ks := by
  rw [called, List.filter_append, List.map_append]
  rfl

theorem called_opening (hook : NodeHook) (n : Node) :
    called hook (n.opening.map (·, n)) = [n].filter (hook ∈ ·.opening) := by
  obtain ⟨kind, span, markup, children⟩ := n
  cases kind <;> cases hook <;> rfl

theorem called_closing {hook : NodeHook} (h : hook ∈ [NodeHook.onNode, .onTag, .onType]) (n : Node) :
    called hook (n.closing.map (·, n)) = [] := by
  obtain ⟨kind, span, markup, children⟩ := n
  simp only [List.mem_cons, List.not_mem_nil, or_false] at h
  rcases h with rfl | rfl | rfl <;> cases kind <;> rfl

mutual

/-- **Hooks before the children** are called once for each node that has them, in document order. -/
theorem called_hooks {hook : NodeHook} (h : hook ∈ [NodeHook.onNode, .onTag, .onType]) :
    ∀ n : Node, called hook n.hooks = n.descendants.filter (hook ∈ ·.opening)
  | ⟨kind, span, markup, children⟩ => by
    rw [hooks, called_append, called_append, called_opening, called_closing h,
      called_hooksOf h children, descendants, List.append_nil, ← List.filter_append,
      List.singleton_append]

theorem called_hooksOf {hook : NodeHook} (h : hook ∈ [NodeHook.onNode, .onTag, .onType]) :
    ∀ ns : List Node, called hook (hooksOf ns) = (descendantsOf ns).filter (hook ∈ ·.opening)
  | [] => rfl
  | n :: ns => by
    rw [hooksOf, called_append, called_hooks h n, called_hooksOf h ns, descendantsOf,
      List.filter_append]

end

/-- **Every node is announced once**, in document order. -/
theorem called_onNode_hooks (n : Node) : called .onNode n.hooks = n.descendants := by
  rw [called_hooks (by simp),
    List.filter_eq_self.2 fun x _ => decide_eq_true (onNode_mem_opening x)]

/-- Every tag is announced as a tag once, in document order. -/
theorem called_onTag_hooks (n : Node) : called .onTag n.hooks = n.descendants.filter isTag := by
  rw [called_hooks (by simp)]
  refine List.filter_congr fun x _ => ?_
  obtain ⟨kind, span, markup, children⟩ := x
  cases kind <;> rfl

/-- Every node is announced by its type once, in document order. -/
theorem called_onType_hooks (n : Node) : called .onType n.hooks = n.descendants := by
  rw [called_hooks (by simp),
    List.filter_eq_self.2 fun x _ => decide_eq_true (onType_mem_opening x)]

end Node

end Liquid

/-! ### Templates -/

open Liquid (Node)

/-- What comes of those elements only of which something holds. -/
theorem flatMap_if {α β : Type} (p : α → Bool) (f : α → List β) (l : List α) :
    (l.flatMap fun a => if p a then f a else []) = (l.filter p).flatMap f := by
  induction l with
  | nil => rfl
  | cons a l ih =>
    rw [List.flatMap_cons, ih, List.filter_cons]
    split <;> rfl

/-- What is reported about the nodes of a tree where only one hook is looked at. -/
theorem flatMap_called {findings : Event → List Finding} {hook : NodeHook} {t : Template}
    (hother : ∀ hook' n, hook' ≠ hook → findings (.node hook' n t) = [])
    (hooks : List (NodeHook × Node)) :
    (hooks.map fun (hook', n) => Event.node hook' n t).flatMap findings =
      (Node.called hook hooks).flatMap fun n => findings (.node hook n t) := by
  induction hooks with
  | nil => rfl
  | cons p hooks ih =>
    obtain ⟨hook', n⟩ := p
    rw [List.map_cons, List.flatMap_cons, ih, Node.called_cons]
    by_cases he : hook' = hook
    · subst he
      rw [if_pos rfl, List.flatMap_cons]
    · rw [if_neg he, hother hook' n he, List.nil_append]

/-- **The hooks of a template.** All checks are shown the same events, one after the other. For a
template that parses these are the hooks of a visit of its tree, in which every node is announced in the
order of a walk with a stack. A template that does not parse has one event for its error, which names the
template. In both cases the end of the template comes last. -/
theorem Template.events_protocol (checks : List Instance) (t : Template) :
    t.events.foldl (fun is e => is.map fun i => i.see e) (checks.map Instance.cleared) =
        checks.map (fun i => i.run t.events) ∧
      (∀ root, t.root = .ok root →
        t.events = root.hooks.map (fun (hook, n) => Event.node hook n t) ++ [.afterTemplate t]) ∧
      (∀ e, t.root = .error e →
        t.events = [.onError e t, .afterTemplate t] ∧
          (Event.onError e t).subject =
            s!"Liquid syntax error (line {e.line}): {e.message} in '{t.name}'") ∧
      ∀ root : Node, (∃ steps, root.IsVisit steps root.hooks) ∧
        Node.called .onNode root.hooks = Node.walk [root] := by
  refine ⟨Instance.foldl_see checks t.events, fun root hroot => events_of_root hroot,
    fun e he => ⟨events_of_error he, ?_⟩, fun root => ⟨⟨root.tour, root.isVisit_tour⟩, ?_⟩⟩
  · have hassoc : ∀ a b c d : String, a ++ (b ++ c ++ d) = a ++ b ++ c ++ d := by
      intro a b c d
      simp only [String.append_assoc]
    exact hassoc _ _ _ _
  · rw [Node.called_onNode_hooks, Node.walk_eq, Node.descendantsOf, Node.descendantsOf,
      List.append_nil]

/-- A text before a block, and a block that is never closed. -/
theorem Template.events_protocol_block :
    let t : Template := ⟨⟨⟨"a.liquid"⟩, "x\x7b% if a %\x7dy\x7b% endif %\x7d".toList⟩, ⟨"a.liquid"⟩⟩
    let u : Template := ⟨⟨⟨"b.liquid"⟩, "\x7b% if a %\x7d".toList⟩, ⟨"b.liquid"⟩⟩
    (∃ root, t.root = .ok root ∧
      t.events = root.hooks.map (fun (hook, n) => Event.node hook n t) ++ [.afterTemplate t]) ∧
      t.events.map Event.hookWord = ["on_node", "on_type", "on_node", "on_type", "on_node", "on_tag",
        "on_type", "on_node", "on_type", "after_type", "after_tag", "after_node", "after_type",
        "after_node", "after_template"] ∧
      ∃ e, u.root = .error e ∧ u.events = [.onError e u, .afterTemplate u] ∧
        (Event.onError e u).subject =
          s!"Liquid syntax error (line {e.line}): {e.message} in '{u.name}'" := by
  intro t u
  have hparsed : t.root.isOk = true := by decide +kernel
  have hfailed : u.root.isOk = false := by decide +kernel
  refine ⟨?_, by decide +kernel, ?_⟩
  · cases hroot : t.root with
    | ok root => exact ⟨root, rfl, (t.events_protocol []).2.1 root hroot⟩
    | error e => simp [hroot, Except.isOk, Except.toBool] at hparsed
  · cases hroot : u.root with
    | ok root => simp [hroot, Except.isOk, Except.toBool] at hfailed
    | error e => exact ⟨e, rfl, (u.events_protocol []).2.2.1 e hroot⟩

end LiquidLint
